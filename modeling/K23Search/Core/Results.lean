/-
The results of one document (core.cpp): a table from query ids to the query's matched words so far. A query is matched
when as many words are recorded as it has unique words; its set of matched words is cleared then (`none`: a set whose
slot arrays are gone).

Results, where every recorded word is one of the query's (`ResultsOk`):
- `add_spec`: `add_query_to_doc_results` is defined, records the word and forgets none;
- `mem_answers_of_recorded`, `of_mem_answers`: a query with all its words recorded is in the answer, and all words of a
  query in the answer have been recorded;
- `answers_nodup`: the answer has no query twice.
-/
import K23Search.Core.Index

namespace K23Search.Core

open K23Search.Lib K23Search.Text

/-! ## Model -/

/-- `std::hash<unsigned>` -/
def uintHash (k : ℕ) : ℕ := k

structure QueryResult where
  query : ℕ
  matched : Bool
  matchedWords : Option (WordSet wordHash)

abbrev ResultTable := Table uintHash QueryResult

structure DocumentResults where
  docId : ℕ
  results : ResultTable
  words : WordSet wordHash
  docStr : List UInt8
  answerLen : ℕ
  answer : List ℕ

/-- `DocumentResults{docId, results_cap, doc_str}` -/
def DocumentResults.make (docId resultsCap : ℕ) (docStr : List UInt8) : DocumentResults :=
  ⟨docId, Table.ofCapacity uintHash resultsCap, Table.ofCapacity wordHash 10, docStr, 0, []⟩

/-- the last test of `add_query_to_doc_results`: all `unique` words of the query are matched -/
def QueryResult.complete (r : QueryResult) (unique : ℕ) : QueryResult :=
  match r.matchedWords with
  | some matchedWords => if matchedWords.size = unique then { r with matched := true, matchedWords := none } else r
  | none => r

/-- `add_query_to_doc_results(trt, q, word)` -/
def addQueryToDocResults (queries : List Query) (rt : ResultTable) (q : ℕ) (word : Word) : Option ResultTable :=
  (queries[q]?).bind fun query =>
    match rt.get query.id with
    | none =>
      let queryRes : QueryResult := ⟨q, false, some (WordSet.insert (Table.ofCapacity wordHash 10) word)⟩
      some (rt.insert query.id (queryRes.complete query.uniqueWords.size))
    | some r =>
      if r.matched then some rt
      else r.matchedWords.map fun matchedWords =>
        rt.modify query.id fun r =>
          QueryResult.complete { r with matchedWords := some (WordSet.insert matchedWords word) } query.uniqueWords.size

/-- the loop of `match_doc` over the results: the ids stored in `answer`, before they are sorted -/
def answers (queries : List Query) (rt : ResultTable) : List ℕ :=
  rt.entries.filterMap fun e => if e.2.matched then (queries[e.2.query]?).map Query.id else none

/-! ## Queries over time -/

/-- the queries grow, and of the old ones only `active` changes -/
def Grows (queries queries' : List Query) : Prop :=
  ∀ (p : ℕ) (q : Query), queries[p]? = some q → ∃ a, queries'[p]? = some { q with active := a }

theorem Grows.refl (queries : List Query) : Grows queries queries := fun _ q h => ⟨q.active, h⟩

/-- no two queries have one id -/
def DistinctIds (queries : List Query) : Prop :=
  ∀ (p p' : ℕ) (q q' : Query), queries[p]? = some q → queries[p']? = some q' → q.id = q'.id → p = p'

/-! ## The invariant -/

/-- `ok p u`: word `u` of query `p` may be recorded -/
structure ResultsOk (queries : List Query) (ok : ℕ → Word → Prop) (rt : ResultTable) : Prop where
  query : ∀ id r, rt.get id = some r → ∃ q : Query, queries[r.query]? = some q ∧ q.id = id
  matched : ∀ (id : ℕ) (r : QueryResult) (q : Query), rt.get id = some r → queries[r.query]? = some q → r.matched = true →
    ∀ u ∈ q.uniqueWords.toList, ok r.query u
  open_words : ∀ (id : ℕ) (r : QueryResult) (q : Query), rt.get id = some r → queries[r.query]? = some q → r.matched = false →
    ∃ mw, r.matchedWords = some mw ∧ mw.size ≠ q.uniqueWords.size ∧ ∀ u ∈ mw.toList, ok r.query u

/-- word `u` of query `p` has been recorded -/
def Recorded (queries : List Query) (rt : ResultTable) (p : ℕ) (u : Word) : Prop :=
  ∃ (q : Query) (r : QueryResult), queries[p]? = some q ∧ rt.get q.id = some r ∧
    (r.matched = true ∨ ∃ mw, r.matchedWords = some mw ∧ u ∈ mw.toList)

section Results

variable {queries : List Query} {ok : ℕ → Word → Prop} {rt : ResultTable}

theorem resultsOk_empty (capacity : ℕ) : ResultsOk queries ok (Table.ofCapacity uintHash capacity) :=
  ⟨by simp, by simp, by simp⟩

theorem ResultsOk.mono {queries' : List Query} {ok' : ℕ → Word → Prop} (h : ResultsOk queries ok rt)
    (hg : Grows queries queries') (hok : ∀ p u, ok p u → ok' p u) : ResultsOk queries' ok' rt := by
  have hback : ∀ (id : ℕ) (r : QueryResult) (q' : Query), rt.get id = some r → queries'[r.query]? = some q' →
      ∃ q : Query, queries[r.query]? = some q ∧ q'.uniqueWords = q.uniqueWords := by
    intro id r q' hr hq'
    obtain ⟨q, hq, -⟩ := h.query id r hr
    obtain ⟨a, ha⟩ := hg _ _ hq
    rw [hq'] at ha
    cases ha
    exact ⟨q, hq, rfl⟩
  constructor
  case query =>
    intro id r hr
    obtain ⟨q, hq, hid⟩ := h.query id r hr
    obtain ⟨a, ha⟩ := hg _ _ hq
    exact ⟨_, ha, hid⟩
  case matched =>
    intro id r q' hr hq' hm u hu
    obtain ⟨q, hq, hwords⟩ := hback id r q' hr hq'
    rw [hwords] at hu
    exact hok _ _ (h.matched id r q hr hq hm u hu)
  case open_words =>
    intro id r q' hr hq' hm
    obtain ⟨q, hq, hwords⟩ := hback id r q' hr hq'
    obtain ⟨mw, hmw, hsize, hall⟩ := h.open_words id r q hr hq hm
    exact ⟨mw, hmw, by rw [hwords]; exact hsize, fun u hu => hok _ _ (hall u hu)⟩

theorem Recorded.mono {queries' : List Query} {p : ℕ} {u : Word} (h : Recorded queries rt p u)
    (hg : Grows queries queries') : Recorded queries' rt p u := by
  obtain ⟨q, r, hq, hr, hw⟩ := h
  obtain ⟨a, ha⟩ := hg _ _ hq
  exact ⟨_, r, ha, hr, hw⟩

/-! ## Recording a word -/

/-- what completing a result does: the set is cleared exactly when it has all words -/
theorem complete_spec {r : QueryResult} {mw : WordSet wordHash} (hr : r.matchedWords = some mw)
    (hm : r.matched = false) (unique : ℕ) : (r.complete unique).query = r.query ∧
    ((r.complete unique).matched = true → mw.size = unique) ∧
    ((r.complete unique).matched = false → (r.complete unique).matchedWords = some mw ∧ mw.size ≠ unique) := by
  unfold QueryResult.complete
  rw [hr]
  by_cases hs : mw.size = unique
  · simp [hs]
  · simp [hs, hm, hr]

/-- a set of as many words as the query has, all of them its own, has all its words -/
theorem subset_of_size {s t : WordSet wordHash} (hsub : ∀ u ∈ s.toList, u ∈ t.toList) (hsize : s.size = t.size) :
    ∀ u ∈ t.toList, u ∈ s.toList := by
  rw [WordSet.size_eq, WordSet.size_eq] at hsize
  exact fun u => ((List.subperm_of_subset s.nodup hsub).perm_of_length_le (le_of_eq hsize.symm)).mem_iff.2

/-- the table after the result of one query is written -/
theorem written_spec (rt' : ResultTable) (hd : DistinctIds queries) (h : ResultsOk queries ok rt)
    (hsub : ∀ (p : ℕ) (u : Word) (q : Query), ok p u → queries[p]? = some q → u ∈ q.uniqueWords.toList) {p : ℕ} {q : Query}
    (hq : queries[p]? = some q) {r : QueryResult} {mw : WordSet wordHash} (hr : r.matchedWords = some mw)
    (hm : r.matched = false) (hp : r.query = p) (hok : ∀ u ∈ mw.toList, ok p u)
    (hget : ∀ k, rt'.get k = if k = q.id then some (r.complete q.uniqueWords.size) else rt.get k)
    (hkeep : ∀ r₀, rt.get q.id = some r₀ → r₀.matched = false ∧ ∀ mw₀, r₀.matchedWords = some mw₀ →
      ∀ u ∈ mw₀.toList, u ∈ mw.toList) :
    ResultsOk queries ok rt' ∧ (∀ u ∈ mw.toList, Recorded queries rt' p u) ∧
      ∀ p' u', Recorded queries rt p' u' → Recorded queries rt' p' u' := by
  obtain ⟨hquery, htrue, hfalse⟩ := complete_spec hr hm q.uniqueWords.size
  have hself := hget q.id
  rw [if_pos rfl] at hself
  have hrec : ∀ u ∈ mw.toList, Recorded queries rt' p u := by
    intro u hu
    refine ⟨q, _, hq, hself, ?_⟩
    cases hc : (r.complete q.uniqueWords.size).matched with
    | true => exact .inl rfl
    | false => exact .inr ⟨mw, (hfalse hc).1, hu⟩
  -- what is stored under an id is the written result, or an old one
  have hcases : ∀ id r', rt'.get id = some r' →
      (id = q.id ∧ r' = r.complete q.uniqueWords.size) ∨ (id ≠ q.id ∧ rt.get id = some r') := by
    intro id r' hr'
    rw [hget] at hr'
    split at hr'
    · next hid =>
      cases hr'
      exact .inl ⟨hid, rfl⟩
    · next hid => exact .inr ⟨hid, hr'⟩
  refine ⟨?_, hrec, fun p' u' hrec' => ?_⟩
  · constructor
    case query =>
      intro id r' hr'
      rcases hcases id r' hr' with ⟨rfl, rfl⟩ | ⟨-, hold⟩
      · exact ⟨q, by rw [hquery, hp, hq], rfl⟩
      · exact h.query id r' hold
    case matched =>
      intro id r' q' hr' hq' hm' u hu
      rcases hcases id r' hr' with ⟨rfl, rfl⟩ | ⟨-, hold⟩
      · rw [hquery, hp] at hq' ⊢
        rw [hq] at hq'
        cases hq'
        exact hok u (subset_of_size (fun v hv => hsub p v q (hok v hv) hq) (htrue hm') u hu)
      · exact h.matched id r' q' hold hq' hm' u hu
    case open_words =>
      intro id r' q' hr' hq' hm'
      rcases hcases id r' hr' with ⟨rfl, rfl⟩ | ⟨-, hold⟩
      · rw [hquery, hp] at hq'
        rw [hq] at hq'
        cases hq'
        obtain ⟨hmw, hne⟩ := hfalse hm'
        exact ⟨mw, hmw, hne, by rw [hquery, hp]; exact hok⟩
      · exact h.open_words id r' q' hold hq' hm'
  · obtain ⟨q', r', hq', hr', hw⟩ := hrec'
    by_cases hid : q'.id = q.id
    · have hpp := hd p' p q' q hq' hq hid
      subst hpp
      rw [hq] at hq'
      cases hq'
      obtain ⟨hopen, hmono⟩ := hkeep r' hr'
      rcases hw with hmatched | ⟨mw', hmw', hu'⟩
      · rw [hopen] at hmatched
        cases hmatched
      · exact hrec u' (hmono mw' hmw' u' hu')
    · exact ⟨q', r', hq', by rw [hget, if_neg hid, hr'], hw⟩

/-- **Recording a word** is defined, keeps the table sound, records the word and forgets none. -/
theorem add_spec (hd : DistinctIds queries) (h : ResultsOk queries ok rt)
    (hsub : ∀ (p : ℕ) (u : Word) (q : Query), ok p u → queries[p]? = some q → u ∈ q.uniqueWords.toList) {p : ℕ} {u : Word} {q : Query}
    (hq : queries[p]? = some q) (hu : ok p u) :
    ∃ rt', addQueryToDocResults queries rt p u = some rt' ∧ ResultsOk queries ok rt' ∧ Recorded queries rt' p u ∧
      ∀ p' u', Recorded queries rt p' u' → Recorded queries rt' p' u' := by
  simp only [addQueryToDocResults, hq, Option.bind_some]
  cases hget : rt.get q.id with
  | none =>
    refine ⟨_, rfl, ?_⟩
    have hmem : ∀ v, v ∈ (WordSet.insert (Table.ofCapacity wordHash 10) u).toList ↔ v = u := by
      intro v
      rw [WordSet.mem_insert, WordSet.toList_empty]
      simp
    obtain ⟨hok', hrec, hmono⟩ := written_spec (rt.insert q.id _) hd h hsub hq
      (r := ⟨p, false, some (WordSet.insert (Table.ofCapacity wordHash 10) u)⟩) rfl rfl rfl
      (fun v hv => by rw [(hmem v).1 hv]; exact hu)
      (fun k => by rw [Table.get_insert_new _ hget]; simp only [eq_comm (a := q.id)]; rfl)
      (fun r₀ hr₀ => by rw [hget] at hr₀; cases hr₀)
    exact ⟨hok', hrec u ((hmem u).2 rfl), hmono⟩
  | some r =>
    obtain ⟨q', hq', hid⟩ := h.query q.id r hget
    have hp : r.query = p := hd _ _ _ _ hq' hq hid
    cases hm : r.matched with
    | true => exact ⟨rt, by simp [hm], h, ⟨q, r, hq, hget, .inl hm⟩, fun _ _ hrec => hrec⟩
    | false =>
      obtain ⟨mw, hmw, -, hall⟩ := h.open_words q.id r q hget (by rw [hp, hq]) hm
      refine ⟨_, by simp only [hm, hmw, Option.map_some]; rfl, ?_⟩
      obtain ⟨hok', hrec, hmono⟩ := written_spec (rt.modify q.id _) hd h hsub hq
        (r := { r with matchedWords := some (WordSet.insert mw u) }) rfl hm hp
        (fun v hv => by
          rcases (WordSet.mem_insert mw).1 hv with rfl | hold
          · exact hu
          · exact hp ▸ hall v hold)
        (fun k => by
          rw [Table.get_modify]
          by_cases hk : k = q.id
          · rw [if_pos hk, if_pos hk, hk, hget, Option.map_some]
          · rw [if_neg hk, if_neg hk])
        (fun r₀ hr₀ => by
          rw [hget] at hr₀
          cases hr₀
          refine ⟨hm, fun mw₀ hmw₀ v hv => ?_⟩
          rw [hmw] at hmw₀
          cases hmw₀
          exact (WordSet.mem_insert mw).2 (.inr hv))
      exact ⟨hok', hrec u ((WordSet.mem_insert mw).2 (.inl rfl)), hmono⟩

/-! ## The answer -/

/-- a query all of whose words are recorded is matched -/
theorem matched_of_recorded (hd : DistinctIds queries) (h : ResultsOk queries ok rt)
    (hsub : ∀ (p : ℕ) (u : Word) (q : Query), ok p u → queries[p]? = some q → u ∈ q.uniqueWords.toList) {p : ℕ} {q : Query}
    (hq : queries[p]? = some q) (hne : q.uniqueWords.toList ≠ [])
    (hall : ∀ u ∈ q.uniqueWords.toList, Recorded queries rt p u) :
    ∃ r, rt.get q.id = some r ∧ r.query = p ∧ r.matched = true := by
  obtain ⟨u₀, hu₀⟩ := List.exists_mem_of_ne_nil _ hne
  obtain ⟨q', r, hq', hr, -⟩ := hall u₀ hu₀
  rw [hq] at hq'
  cases hq'
  obtain ⟨q', hq', hid⟩ := h.query q.id r hr
  have hp : r.query = p := hd _ _ _ _ hq' hq hid
  refine ⟨r, hr, hp, ?_⟩
  by_contra hm
  rw [Bool.not_eq_true] at hm
  obtain ⟨mw, hmw, hsize, hok'⟩ := h.open_words q.id r q hr (by rw [hp, hq]) hm
  -- all words are in the set, so it is as large as the query's
  have hsup : ∀ u ∈ q.uniqueWords.toList, u ∈ mw.toList := by
    intro u hu
    obtain ⟨q', r', hq', hr', hw⟩ := hall u hu
    rw [hq] at hq'
    cases hq'
    rw [hr] at hr'
    cases hr'
    rcases hw with hw | ⟨mw', hmw', hu'⟩
    · rw [hm] at hw
      cases hw
    · rw [hmw] at hmw'
      cases hmw'
      exact hu'
  have hle := (List.subperm_of_subset q.uniqueWords.nodup hsup).length_le
  have hge := (List.subperm_of_subset mw.nodup fun u hu => hsub p u q (hp ▸ hok' u hu) hq).length_le
  exact absurd (by rw [WordSet.size_eq, WordSet.size_eq]; omega) hsize

/-- a query all of whose words are recorded is in the answer -/
theorem mem_answers_of_recorded (hd : DistinctIds queries) (h : ResultsOk queries ok rt)
    (hsub : ∀ (p : ℕ) (u : Word) (q : Query), ok p u → queries[p]? = some q → u ∈ q.uniqueWords.toList) {p : ℕ} {q : Query}
    (hq : queries[p]? = some q) (hne : q.uniqueWords.toList ≠ [])
    (hall : ∀ u ∈ q.uniqueWords.toList, Recorded queries rt p u) : q.id ∈ answers queries rt := by
  obtain ⟨r, hr, hp, hm⟩ := matched_of_recorded hd h hsub hq hne hall
  exact List.mem_filterMap.2 ⟨(q.id, r), (Table.mem_entries rt).2 hr, by simp [hm, hp, hq]⟩

/-- all words of a query in the answer have been recorded -/
theorem of_mem_answers (h : ResultsOk queries ok rt) {id : ℕ} (hid : id ∈ answers queries rt) :
    ∃ (p : ℕ) (q : Query), queries[p]? = some q ∧ q.id = id ∧ ∀ u ∈ q.uniqueWords.toList, ok p u := by
  obtain ⟨⟨k, r⟩, hmem, hr⟩ := List.mem_filterMap.1 hid
  have hget := (Table.mem_entries rt).1 hmem
  split at hr
  · next hm =>
    obtain ⟨q, hq, rfl⟩ := Option.map_eq_some_iff.1 hr
    exact ⟨r.query, q, hq, rfl, h.matched k r q hget hq hm⟩
  · cases hr

theorem answers_nodup (h : ResultsOk queries ok rt) : (answers queries rt).Nodup := by
  -- the id stored for an entry is its key
  have hkey : ∀ e ∈ rt.entries, ∀ id ∈ (if e.2.matched then (queries[e.2.query]?).map Query.id else none),
      id = e.1 := by
    intro e he id hid
    obtain ⟨q, hq, hqid⟩ := h.query e.1 e.2 ((Table.mem_entries rt).1 he)
    split at hid
    · rw [hq] at hid
      cases hid
      exact hqid
    · cases hid
  have hsub : (answers queries rt).Sublist (rt.entries.map Prod.fst) := by
    unfold answers
    generalize rt.entries = es at hkey
    induction es with
    | nil => exact List.Sublist.refl _
    | cons e es ih =>
      have ih := ih fun e he => hkey e (List.mem_cons_of_mem _ he)
      rw [List.filterMap_cons, List.map_cons]
      split
      · exact ih.cons _
      · next id hid =>
        rw [hkey e List.mem_cons_self id hid]
        exact ih.cons_cons _
  exact rt.keys_nodup.sublist hsub

end Results

end K23Search.Core
