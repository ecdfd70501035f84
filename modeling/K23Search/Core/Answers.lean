/-
How the answer of one document is put together (core.cpp): the calls of `add_query_to_doc_results`, in any order, and
the `qsort` of `match_doc` with its comparison `comp`.

`qsort` is a parameter: the standard promises an ascending permutation only when the comparison is a consistent
three-way order on the elements of the array (`MeetsStandard`).

Results:
- `completion`: a query is matched when all its words were recorded, in whatever order;
- `ascending_iff`: the answer is ascending under every such `qsort` only when at most one query is matched.
Counterexample: `two_matched`.
-/
import K23Search.Core.Results
import K23Search.Lib.Run
import Mathlib.Data.Int.Order.Basic
import Mathlib.Data.List.Sort

namespace K23Search.Core

open K23Search.Lib K23Search.Text

/-! ## Recording in any order -/

/-- the result table after calls of `add_query_to_doc_results`, each for a query and a word -/
def addCalls (queries : List Query) : ResultTable → List (ℕ × Word) → Option ResultTable :=
  run fun rt c => addQueryToDocResults queries rt c.1 c.2

/-- the calls are for words of their queries -/
def OwnWords (queries : List Query) (calls : List (ℕ × Word)) : Prop :=
  ∀ c ∈ calls, ∃ q : Query, queries[c.1]? = some q ∧ c.2 ∈ q.uniqueWords.toList

/-- a set of matched words is cleared exactly when the query is matched -/
def Cleared (rt : ResultTable) : Prop := ∀ id r, rt.get id = some r → (r.matchedWords = none ↔ r.matched = true)

section Recording

variable {queries : List Query} {rt rt' : ResultTable} {p : ℕ} {u : Word} {q : Query}

theorem complete_cleared {mw : WordSet wordHash} (p unique : ℕ) :
    (QueryResult.complete ⟨p, false, some mw⟩ unique).matchedWords = none ↔
      (QueryResult.complete ⟨p, false, some mw⟩ unique).matched = true := by
  simp only [QueryResult.complete]
  split <;> simp

/-- what one call does: the entry of its query is as it was, or written; no other is touched -/
theorem add_cases (hq : queries[p]? = some q) (h : addQueryToDocResults queries rt p u = some rt') :
    (∀ id, id ≠ q.id → rt'.get id = rt.get id) ∧
    ((∃ r, rt.get q.id = some r ∧ r.matched = true ∧ rt' = rt) ∨
      ((∀ r, rt.get q.id = some r → r.matched = false) ∧ ∃ p' mw,
        rt'.get q.id = some (QueryResult.complete ⟨p', false, some mw⟩ q.uniqueWords.size))) := by
  simp only [addQueryToDocResults, hq, Option.bind_some] at h
  cases hget : rt.get q.id with
  | none =>
    simp only [hget] at h
    cases h
    have hnew := fun id => Table.get_insert_new rt hget
      (QueryResult.complete ⟨p, false, some (WordSet.insert (Table.ofCapacity wordHash 10) u)⟩ q.uniqueWords.size) id
    exact ⟨fun id hid => by rw [hnew, if_neg hid.symm], .inr ⟨by simp, p, _, by rw [hnew, if_pos rfl]⟩⟩
  | some r =>
    simp only [hget] at h
    cases hm : r.matched with
    | true =>
      rw [if_pos hm] at h
      cases h
      exact ⟨fun _ _ => rfl, .inl ⟨r, rfl, hm, rfl⟩⟩
    | false =>
      rw [if_neg (by simp [hm])] at h
      obtain ⟨mw, -, rfl⟩ := Option.map_eq_some_iff.1 h
      refine ⟨fun id hid => by rw [Table.get_modify, if_neg hid], .inr ⟨by simp [hm], r.query, WordSet.insert mw u, ?_⟩⟩
      rw [Table.get_modify, if_pos rfl, hget, Option.map_some]
      obtain ⟨query, matched, words⟩ := r
      cases hm
      rfl

theorem Cleared.add (hc : Cleared rt) (hq : queries[p]? = some q)
    (h : addQueryToDocResults queries rt p u = some rt') : Cleared rt' := by
  obtain ⟨hframe, hself⟩ := add_cases hq h
  intro id r hr
  by_cases hid : id = q.id
  · rcases hself with ⟨-, -, -, rfl⟩ | ⟨-, p', mw, hnew⟩
    · exact hc id r hr
    · rw [hid, hnew] at hr
      cases hr
      exact complete_cleared p' q.uniqueWords.size
  · rw [hframe id hid] at hr
    exact hc id r hr

/-- a matched query's entry stays as it is -/
theorem add_keeps_matched (hq : queries[p]? = some q) (h : addQueryToDocResults queries rt p u = some rt') {id : ℕ}
    {r : QueryResult} (hr : rt.get id = some r) (hm : r.matched = true) : rt'.get id = some r := by
  obtain ⟨hframe, hself⟩ := add_cases hq h
  by_cases hid : id = q.id
  · rcases hself with ⟨-, -, -, rfl⟩ | ⟨hopen, -⟩
    · exact hr
    · rw [hid] at hr
      rw [hopen r hr] at hm
      cases hm
  · rw [hframe id hid, hr]

/-- the run of the calls, with what it has recorded -/
theorem addCalls_spec (hd : DistinctIds queries) {calls : List (ℕ × Word)} (hcalls : OwnWords queries calls)
    (capacity : ℕ) : ∃ rt, addCalls queries (Table.ofCapacity uintHash capacity) calls = some rt ∧
      ResultsOk queries (fun p u => (p, u) ∈ calls) rt ∧ Cleared rt ∧ ∀ c ∈ calls, Recorded queries rt c.1 c.2 := by
  induction calls using List.reverseRecOn with
  | nil => exact ⟨_, rfl, resultsOk_empty capacity, fun id r hr => by simp at hr, by simp⟩
  | append_singleton calls c ih =>
    have hold : OwnWords queries calls := fun c' hc' => hcalls c' (List.mem_append_left _ hc')
    obtain ⟨rt, hrun, hok, hcleared, hrec⟩ := ih hold
    obtain ⟨q, hq, -⟩ := hcalls c (by simp)
    have hmono := hok.mono (Grows.refl queries) fun p u (h : (p, u) ∈ calls) => List.mem_append_left [c] h
    obtain ⟨rt', hadd, hok', hnew, hkeep⟩ := add_spec hd hmono (p := c.1) (u := c.2)
      (fun p u q h hq => by
        obtain ⟨q', hq', hu⟩ := hcalls (p, u) h
        rw [hq] at hq'
        cases hq'
        exact hu) hq (by simp)
    refine ⟨rt', ?_, hok', hcleared.add hq hadd, fun c' hc' => ?_⟩
    · rw [addCalls, run_snoc]
      rw [addCalls] at hrun
      rw [hrun, Option.bind_some, hadd]
    · rcases List.mem_append.1 hc' with hc' | hc'
      · exact hkeep _ _ (hrec c' hc')
      · rw [List.mem_singleton.1 hc']
        exact hnew

/-- **Completion does not depend on the order of the matches.** From an empty table, every sequence of calls for words of
their queries is defined, so no cleared set is used; a query with words is matched when all of them occurred, and only
then; and one more call leaves the other queries' entries, and all matched ones, as they are. -/
theorem completion (hd : DistinctIds queries) {calls : List (ℕ × Word)} (hcalls : OwnWords queries calls) (capacity : ℕ) :
    ∃ rt, addCalls queries (Table.ofCapacity uintHash capacity) calls = some rt ∧
      (∀ (p : ℕ) (q : Query), queries[p]? = some q → q.uniqueWords.toList ≠ [] →
        ((∃ r, rt.get q.id = some r ∧ r.matched = true) ↔ ∀ u ∈ q.uniqueWords.toList, (p, u) ∈ calls)) ∧
      (∀ id r, rt.get id = some r → (r.matchedWords = none ↔ r.matched = true)) ∧
      ∀ (p : ℕ) (u : Word) (q : Query), queries[p]? = some q → u ∈ q.uniqueWords.toList →
        ∃ rt', addQueryToDocResults queries rt p u = some rt' ∧ (∀ id, id ≠ q.id → rt'.get id = rt.get id) ∧
          ∀ id r, rt.get id = some r → r.matched = true → rt'.get id = some r := by
  obtain ⟨rt, hrun, hok, hcleared, hrec⟩ := addCalls_spec hd hcalls capacity
  have hown : ∀ (p : ℕ) (u : Word) (q : Query), (p, u) ∈ calls → queries[p]? = some q → u ∈ q.uniqueWords.toList := by
    intro p u q h hq
    obtain ⟨q', hq', hu⟩ := hcalls (p, u) h
    rw [hq] at hq'
    cases hq'
    exact hu
  refine ⟨rt, hrun, fun p q hq hne => ⟨?_, fun hall => ?_⟩, hcleared, fun p u q hq hu => ?_⟩
  · rintro ⟨r, hr, hm⟩ u hu
    obtain ⟨q', hq', hid⟩ := hok.query q.id r hr
    have hp : r.query = p := hd _ _ _ _ hq' hq hid
    have := hok.matched q.id r q hr (by rw [hp, hq]) hm u hu
    rwa [hp] at this
  · obtain ⟨r, hr, -, hm⟩ := matched_of_recorded hd hok hown hq hne fun u hu => hrec (p, u) (hall u hu)
    exact ⟨r, hr, hm⟩
  · have hmore : OwnWords queries (calls ++ [(p, u)]) := by
      intro c hc
      rcases List.mem_append.1 hc with hc | hc
      · exact hcalls c hc
      · rw [List.mem_singleton.1 hc]
        exact ⟨q, hq, hu⟩
    obtain ⟨rt', hrun', -⟩ := addCalls_spec hd hmore capacity
    rw [addCalls, run_snoc] at hrun'
    rw [addCalls] at hrun
    rw [hrun, Option.bind_some] at hrun'
    exact ⟨rt', hrun', (add_cases hq hrun').1, fun id r => add_keeps_matched hq hrun'⟩

end Recording

/-- two queries of one word each -/
def twoQueries : List Query :=
  [⟨1, true, .exactMatch, 0, [97, 97, 97, 97], WordSet.ofWords wordHash 10 [[97, 97, 97, 97]]⟩,
    ⟨2, true, .exactMatch, 0, [98, 98, 98, 98], WordSet.ofWords wordHash 10 [[98, 98, 98, 98]]⟩]

theorem distinctIds_of_nodup {queries : List Query} (h : (queries.map Query.id).Nodup) : DistinctIds queries := by
  intro p p' q q' hq hq' hid
  have h1 : (queries.map Query.id)[p]? = some q.id := by rw [List.getElem?_map, hq, Option.map_some]
  have h2 : (queries.map Query.id)[p']? = some q.id := by rw [List.getElem?_map, hq', Option.map_some, hid]
  exact (List.getElem?_inj (List.getElem?_eq_some_iff.1 h1).1 h).1 (h1.trans h2.symm)

theorem twoQueries_ownWords : OwnWords twoQueries [(0, [97, 97, 97, 97]), (1, [98, 98, 98, 98]), (0, [97, 97, 97, 97])] := by
  have hmem : ∀ w : Word, w ∈ (WordSet.ofWords wordHash 10 [w]).toList := fun w =>
    (WordSet.mem_ofWords).2 (List.mem_singleton_self w)
  intro c hc
  simp only [List.mem_cons, List.not_mem_nil, or_false] at hc
  rcases hc with rfl | rfl | rfl
  · exact ⟨_, rfl, hmem _⟩
  · exact ⟨_, rfl, hmem _⟩
  · exact ⟨_, rfl, hmem _⟩

/-- the word of the first query is recorded twice -/
theorem completion_repeated :
    ∃ rt, addCalls twoQueries (Table.ofCapacity uintHash 10)
        [(0, [97, 97, 97, 97]), (1, [98, 98, 98, 98]), (0, [97, 97, 97, 97])] = some rt ∧
      ∀ (p : ℕ) (q : Query), twoQueries[p]? = some q → q.uniqueWords.toList ≠ [] →
        ((∃ r, rt.get q.id = some r ∧ r.matched = true) ↔ ∀ u ∈ q.uniqueWords.toList,
          (p, u) ∈ [(0, ([97, 97, 97, 97] : Word)), (1, [98, 98, 98, 98]), (0, [97, 97, 97, 97])]) := by
  obtain ⟨rt, hrun, hmatched, -⟩ := completion (distinctIds_of_nodup (by decide)) twoQueries_ownWords 10
  exact ⟨rt, hrun, hmatched⟩

/-! ## The sort -/

/-- `comp` -/
def comp (a b : ℕ) : ℤ := if a > b then 1 else 0

/-- a consistent three-way order on the elements of an array -/
structure Consistent (cmp : ℕ → ℕ → ℤ) (l : List ℕ) : Prop where
  sign : ∀ a ∈ l, ∀ b ∈ l, (cmp a b).sign = -(cmp b a).sign
  eq_of_zero : ∀ a ∈ l, ∀ b ∈ l, cmp a b = 0 → a = b
  trans : ∀ a ∈ l, ∀ b ∈ l, ∀ c ∈ l, cmp a b < 0 → cmp b c < 0 → cmp a c < 0

/-- what the standard promises of `qsort` -/
def MeetsStandard (sort : (ℕ → ℕ → ℤ) → List ℕ → List ℕ) : Prop :=
  ∀ cmp l, Consistent cmp l → (sort cmp l).Perm l ∧ (sort cmp l).Pairwise fun a b => cmp a b ≤ 0

section Qsort

variable {l l' : List ℕ}

/-- a consistent order sorts -/
theorem Consistent.exists_sorted {cmp : ℕ → ℕ → ℤ} (h : Consistent cmp l) :
    ∃ l' : List ℕ, l'.Perm l ∧ l'.Pairwise fun a b => cmp a b ≤ 0 := by
  have htrans : ∀ a b c : {x // x ∈ l}, decide (cmp a b ≤ 0) → decide (cmp b c ≤ 0) → decide (cmp a c ≤ 0) := by
    intro a b c hab hbc
    simp only [decide_eq_true_eq] at hab hbc ⊢
    rcases Int.lt_or_eq_of_le hab with hab | hab
    · rcases Int.lt_or_eq_of_le hbc with hbc | hbc
      · exact Int.le_of_lt (h.trans a a.2 b b.2 c c.2 hab hbc)
      · rw [← h.eq_of_zero b b.2 c c.2 hbc]
        exact Int.le_of_lt hab
    · rw [h.eq_of_zero a a.2 b b.2 hab]
      exact hbc
  have htotal : ∀ a b : {x // x ∈ l}, decide (cmp a b ≤ 0) || decide (cmp b a ≤ 0) := by
    intro a b
    have hsign := h.sign a a.2 b b.2
    by_contra hno
    simp only [Bool.or_eq_true, decide_eq_true_eq, not_or, Int.not_le] at hno
    rw [Int.sign_eq_one_of_pos hno.1, Int.sign_eq_one_of_pos hno.2] at hsign
    omega
  refine ⟨(l.attach.mergeSort fun a b => decide (cmp a b ≤ 0)).map Subtype.val, ?_, ?_⟩
  · have := (List.mergeSort_perm l.attach fun a b => decide (cmp a b ≤ 0)).map Subtype.val
    rwa [List.attach_map_subtype_val] at this
  · rw [List.pairwise_map]
    exact (List.pairwise_mergeSort htrans htotal l.attach).imp fun hab => by simpa using hab

/-- `comp` is no three-way order on two ids: it never says that one is smaller -/
theorem comp_inconsistent (hnd : l.Nodup) (hlen : 2 ≤ l.length) : ¬ Consistent comp l := by
  intro h
  obtain ⟨a, b, rest, rfl⟩ : ∃ a b rest, l = a :: b :: rest := by
    match l, hlen with
    | a :: b :: rest, _ => exact ⟨a, b, rest, rfl⟩
  have hab : a ≠ b := by
    simp only [List.nodup_cons, List.mem_cons, not_or] at hnd
    exact hnd.1.1
  have hzero : comp a b = 0 ∨ comp b a = 0 := by
    simp only [comp]
    split <;> split <;> omega
  rcases hzero with hz | hz
  · exact hab (h.eq_of_zero a (by simp) b (by simp) hz)
  · exact hab (h.eq_of_zero b (by simp) a (by simp) hz).symm

/-- **Any order.** On two ids or more, every permutation is the outcome of some `qsort` that meets the standard, and that
permutes its array whatever the comparison. -/
theorem any_order (hnd : l.Nodup) (hlen : 2 ≤ l.length) (hperm : l'.Perm l) :
    ∃ sort, MeetsStandard sort ∧ (∀ cmp m, (sort cmp m).Perm m) ∧ sort comp l = l' := by
  classical
  refine ⟨fun cmp m => if h : Consistent cmp m then h.exists_sorted.choose else if m = l then l' else m,
    fun cmp m h => ?_, fun cmp m => ?_, ?_⟩
  · simp only [dif_pos h]
    exact h.exists_sorted.choose_spec
  · by_cases h : Consistent cmp m
    · simp only [dif_pos h]
      exact h.exists_sorted.choose_spec.1
    · simp only [dif_neg h]
      split
      · next hm => rwa [hm]
      · exact List.Perm.refl m
  · simp only [dif_neg (comp_inconsistent hnd hlen), if_true]

/-- one id is in order -/
theorem sort_short {sort : (ℕ → ℕ → ℤ) → List ℕ → List ℕ} (hs : MeetsStandard sort) (hlen : l.length ≤ 1) :
    sort comp l = l := by
  have hself : ∀ a ∈ l, ∀ b ∈ l, comp a b = 0 ∧ a = b := by
    intro a ha b hb
    have hab : a = b := by
      match l, hlen with
      | [], _ => cases ha
      | [c], _ => rw [List.mem_singleton.1 ha, List.mem_singleton.1 hb]
    rw [hab]
    exact ⟨by simp [comp], rfl⟩
  have hcons : Consistent comp l := by
    refine ⟨fun a ha b hb => ?_, fun a ha b hb _ => (hself a ha b hb).2, fun a ha b hb c hc hab => ?_⟩
    · rw [(hself a ha b hb).1, (hself b hb a ha).1]
      rfl
    · rw [(hself a ha b hb).1] at hab
      omega
  have hperm := (hs comp l hcons).1
  match l, hlen with
  | [], _ => exact List.perm_nil.1 hperm
  | [a], _ => exact List.perm_singleton.1 hperm

/-- two ids or more have an order that is not ascending -/
theorem exists_not_ascending (hlen : 2 ≤ l.length) : ∃ l' : List ℕ, l'.Perm l ∧ ¬ l'.Pairwise (· < ·) := by
  by_cases hasc : l.Pairwise (· < ·)
  · refine ⟨l.reverse, List.reverse_perm l, fun hrev => ?_⟩
    rw [List.pairwise_reverse] at hrev
    match l, hlen with
    | a :: b :: rest, _ =>
      have h1 := (List.pairwise_cons.1 hasc).1 b (by simp)
      have h2 := (List.pairwise_cons.1 hrev).1 b (by simp)
      omega
  · exact ⟨l, List.Perm.refl l, hasc⟩

end Qsort

section Answer

variable {queries : List Query} {ok : ℕ → Word → Prop} {rt : ResultTable}

/-- the answer has the ids of the matched queries -/
theorem mem_answers (h : ResultsOk queries ok rt) {id : ℕ} :
    id ∈ answers queries rt ↔ ∃ r, rt.get id = some r ∧ r.matched = true := by
  rw [answers, List.mem_filterMap]
  constructor
  · rintro ⟨⟨k, r⟩, hmem, hid⟩
    have hget := (Table.mem_entries rt).1 hmem
    obtain ⟨q, hq, hqid⟩ := h.query k r hget
    split at hid
    · next hm =>
      rw [hq, Option.map_some, Option.some.injEq, hqid] at hid
      exact ⟨r, hid ▸ hget, hm⟩
    · cases hid
  · rintro ⟨r, hget, hm⟩
    obtain ⟨q, hq, hqid⟩ := h.query id r hget
    exact ⟨(id, r), (Table.mem_entries rt).2 hget, by simp [hm, hq, hqid]⟩

/-- **When the answer is ascending.** In whatever order the ids are collected, the array is strictly ascending under
every `qsort` that meets the standard exactly when no two queries are matched. -/
theorem ascending_iff (h : ResultsOk queries ok rt) :
    (∀ ids : List ℕ, ids.Perm (answers queries rt) → ∀ sort, MeetsStandard sort → (sort comp ids).Pairwise (· < ·)) ↔
      ∀ id id' r r', rt.get id = some r → rt.get id' = some r' → r.matched = true → r'.matched = true → id = id' := by
  have hnd := answers_nodup h
  constructor
  · intro hasc id id' r r' hr hr' hm hm'
    by_contra hne
    have hmem := (mem_answers h).2 ⟨r, hr, hm⟩
    have hmem' := (mem_answers h).2 ⟨r', hr', hm'⟩
    have hsub : [id, id'] ⊆ answers queries rt := by
      simp [hmem, hmem']
    have hlen : 2 ≤ (answers queries rt).length :=
      (List.subperm_of_subset (by simpa using hne : [id, id'].Nodup) hsub).length_le
    obtain ⟨l', hperm, hno⟩ := exists_not_ascending hlen
    obtain ⟨sort, hs, -, hout⟩ := any_order hnd hlen hperm
    exact hno (hout ▸ hasc _ (List.Perm.refl _) sort hs)
  · intro hone ids hperm sort hs
    have hlen : ids.length ≤ 1 := by
      rw [hperm.length_eq]
      match hans : answers queries rt with
      | [] => simp
      | [a] => simp
      | a :: b :: rest =>
        rw [hans] at hnd
        obtain ⟨r, hr, hm⟩ := (mem_answers h).1 (by rw [hans]; simp : a ∈ answers queries rt)
        obtain ⟨r', hr', hm'⟩ := (mem_answers h).1 (by rw [hans]; simp : b ∈ answers queries rt)
        have hab := hone a b r r' hr hr' hm hm'
        simp [hab] at hnd
    rw [sort_short hs hlen]
    match ids, hlen with
    | [], _ => exact List.Pairwise.nil
    | [a], _ => exact List.pairwise_singleton _ a

/-- a document that matches both queries -/
theorem ascending_iff_two :
    ∃ rt, addCalls twoQueries (Table.ofCapacity uintHash 10)
        [(0, [97, 97, 97, 97]), (1, [98, 98, 98, 98]), (0, [97, 97, 97, 97])] = some rt ∧
      ((∀ ids : List ℕ, ids.Perm (answers twoQueries rt) → ∀ sort, MeetsStandard sort →
          (sort comp ids).Pairwise (· < ·)) ↔
        ∀ id id' r r', rt.get id = some r → rt.get id' = some r' → r.matched = true → r'.matched = true → id = id') := by
  obtain ⟨rt, hrun, hok, -⟩ := addCalls_spec (distinctIds_of_nodup (by decide)) twoQueries_ownWords 10
  exact ⟨rt, hrun, ascending_iff hok⟩

/-- both are matched, and a `qsort` that meets the standard may return them as 2, 1 -/
theorem two_matched :
    ∃ rt, addCalls twoQueries (Table.ofCapacity uintHash 10) [(0, [97, 97, 97, 97]), (1, [98, 98, 98, 98])] = some rt ∧
      ¬ ∀ ids : List ℕ, ids.Perm (answers twoQueries rt) → ∀ sort, MeetsStandard sort → (sort comp ids).Pairwise (· < ·) := by
  have hrun : (addCalls twoQueries (Table.ofCapacity uintHash 10) [(0, [97, 97, 97, 97]), (1, [98, 98, 98, 98])]).map
      (answers twoQueries) = some [1, 2] := by decide +kernel
  obtain ⟨rt, hrt, hans⟩ := Option.map_eq_some_iff.1 hrun
  refine ⟨rt, hrt, fun hasc => ?_⟩
  obtain ⟨sort, hs, -, hout⟩ := @any_order [1, 2] [2, 1] (by decide) (by decide) (by decide)
  have := hasc [1, 2] (by rw [hans]) sort hs
  rw [hout] at this
  exact absurd this (by decide)

end Answer

end K23Search.Core
