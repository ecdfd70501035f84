/-
The answer of a document against the queries that were active when `MatchDocument` was called.

`Seen` is the invariant for one document from its call on. While its answer is not stored, the queries of the snapshot
stay active (`EndQuery` waits for the jobs), and a query that is active besides them has been started since; the run of
`match_doc` finds the queries of the snapshot because `MatchDocument` has waited for their insertions.

Result:
- `seen`: it holds in every state of a run in which no query is started that matches the document (`Apart`).
-/
import K23Search.Core.Delivery
import K23Search.Core.Matching

namespace K23Search.Core

open K23Search.Lib K23Search.Text

/-! ## Queries as they were asked -/

/-- the query is the one that was asked for -/
structure Query.IsFor (q : Query) (a : Asked) : Prop where
  id : q.id = a.id
  matchType : q.matchType = a.matchType
  matchDist : q.matchDist = a.matchDist
  words : ∀ u, u ∈ q.uniqueWords.toList ↔ u ∈ a.words
  nonempty : a.words ≠ []
  dist : a.matchDist ≤ 3

/-- the positions in `heap` of the queries that were active when `MatchDocument(d, …)` was called -/
def Snap {n : ℕ} (as : List (Act n)) (d p : ℕ) : Prop := ∃ q ∈ activeAt as d, (started as)[p]? = some q

section Asked

variable {n : ℕ} {s : State n} {a : Act n} {as : List (Act n)} {d : ℕ}

theorem Query.IsFor.fits {q : Query} {a : Asked} (h : q.IsFor a) (doc : List Word) : q.Fits doc ↔ a.Matches doc := by
  simp only [Query.Fits, Asked.Matches, h.words, h.matchType, h.matchDist]

theorem forall₂_getElem {α β : Type} {R : α → β → Prop} {l : List α} {l' : List β} (h : List.Forall₂ R l l') (p : ℕ) :
    (∀ x, l[p]? = some x → ∃ y, l'[p]? = some y ∧ R x y) ∧ ∀ y, l'[p]? = some y → ∃ x, l[p]? = some x ∧ R x y := by
  induction h generalizing p with
  | nil => simp
  | cons hab hrest ih =>
    cases p with
    | zero => simp [hab]
    | succ p => simpa using ih p

/-- the heap has the queries that were asked for, in order -/
theorem Heap.asked (h : Heap as s.heap) (hv : ∀ a ∈ as, a.Valid) : List.Forall₂ Query.IsFor s.heap (started as) := by
  have hqueries : List.Forall₂ Query.IsFor (queriesOf as) (started as) := by
    clear h
    induction as with
    | nil => exact .nil
    | cons a as ih =>
      have ih := ih fun b hb => hv b (List.mem_cons_of_mem _ hb)
      have ha := hv a List.mem_cons_self
      cases a with
      | startQuery id str t dist =>
        cases t with
        | none => exact ih
        | some t =>
          obtain ⟨htext, -, hdist⟩ := ha
          have hquery : (Act.startQuery id str (some t) dist : Act n).query =
              some ⟨id, true, t, dist, str, WordSet.ofWords wordHash 5 (words 32 str)⟩ := by
            simp only [Act.query, tokens_valid htext, Option.map_some]
          rw [queriesOf, List.filterMap_cons, hquery, started, List.filterMap_cons]
          exact .cons ⟨rfl, rfl, rfl, fun u => WordSet.mem_ofWords, htext.nonempty, hdist⟩ ih
      | _ => exact ih
  rw [← show s.heap.map Query.started = queriesOf as from h, List.forall₂_map_left_iff] at hqueries
  exact hqueries.imp fun q a hqa => ⟨hqa.id, hqa.matchType, hqa.matchDist, hqa.words, hqa.nonempty, hqa.dist⟩

theorem DistinctCalls.started_nodup (h : DistinctCalls as) : ((started as).map Asked.id).Nodup :=
  h.starts.sublist (started_ids_sublist as)

theorem before_sublist (as : List (Act n)) (d : ℕ) : (before as d).Sublist as := (List.takeWhile_prefix _).sublist

/-- the queries of the snapshot have been started -/
theorem activeAt_subset (as : List (Act n)) (d : ℕ) : activeAt as d ⊆ started as :=
  ((activeAfter_sublist _).trans ((before_sublist as d).filterMap _)).subset

/-- a call after that of `MatchDocument` does not change the snapshot -/
theorem snap_snoc (hd : d ∈ (documents as).map Prod.fst) (hdist : DistinctCalls (as ++ [a])) :
    Snap (as ++ [a]) d = Snap as d := by
  funext p
  simp only [Snap, activeAt, before_snoc hd, started_snoc, eq_iff_iff]
  refine exists_congr fun q => and_congr_right fun hq => ?_
  constructor
  · intro hp
    rw [List.getElem?_append] at hp
    split at hp
    · exact hp
    · -- a query that is started now is not of the snapshot
      have hnew : a.asked = some q := by
        have hmem := List.mem_of_getElem? hp
        rwa [Option.mem_toList] at hmem
      exact absurd (started_ids (activeAt_subset as d hq)) (hdist.new_start (asked_startId hnew))
  · intro hp
    rw [List.getElem?_append_left (List.getElem?_eq_some_iff.1 hp).1, hp]

/-- at the call the snapshot has the active queries -/
theorem snap_called (hd : d ∉ (documents as).map Prod.fst) {ws : List Word} (ha : a.document = some (d, ws))
    (hask : a.asked = none) (p : ℕ) : Snap (as ++ [a]) d p ↔ ∃ q ∈ activeAfter as, (started as)[p]? = some q := by
  rw [Snap, activeAt, before_call hd ha, started_snoc, hask, Option.toList_none, List.append_nil]

end Asked

/-! ## What is known of a reachable state -/

structure Known {n : ℕ} (as : List (Act n)) (s : State n) : Prop where
  valid : Valid as
  records : Records as s
  way : Way as s
  index : IndexOk s
  settled : Settled s
  registry : Registry as s
  counted : Counted s

section Known

variable {n : ℕ} {s : State n} {as : List (Act n)} {d : ℕ} {doc : List Word} {node : ℕ} {res : DocumentResults}

theorem counted_subset (s : State n) : s.counted ⊆ s.heap := by
  unfold State.counted
  split
  · exact List.dropLast_subset _
  · exact List.Subset.refl _

theorem known [NeZero n] (hr : run State.step State.init as = some s) (hv : Valid as) : Known as s :=
  ⟨hv, records hr, way hr, indexOk hr hv.text, settled hr, registry hr hv.toDistinctCalls, counted hr hv.toDistinctCalls⟩

namespace Known

variable (h : Known as s)

include h

theorem asked : List.Forall₂ Query.IsFor s.heap (started as) := h.records.heap.asked h.valid.acts

theorem wordsFit : WordsFit s.heap := h.records.heap.wordsFit h.valid.text

theorem distinct : DistinctIds s.heap := h.registry.distinct h.valid.toDistinctCalls

theorem snap_some {p : ℕ} (hp : Snap as d p) : ∃ q, s.heap[p]? = some q := by
  obtain ⟨a, -, ha⟩ := hp
  obtain ⟨q, hq, -⟩ := (forall₂_getElem h.asked p).2 a ha
  exact ⟨q, hq⟩

/-- a query at the end of the heap is not of the snapshot -/
theorem snap_lt {p : ℕ} (hp : Snap as d p) : p < s.heap.length := by
  obtain ⟨q, hq⟩ := h.snap_some hp
  exact (List.getElem?_eq_some_iff.1 hq).1

theorem unique_words {q : Query} (hq : q ∈ s.heap) : q.uniqueWords.toList ≠ [] := by
  obtain ⟨p, hp⟩ := List.mem_iff_getElem?.1 hq
  obtain ⟨a, -, hfor⟩ := (forall₂_getElem h.asked p).1 q hp
  obtain ⟨u, hu⟩ := List.exists_mem_of_ne_nil _ hfor.nonempty
  exact List.ne_nil_of_mem ((hfor.words u).2 hu)

theorem threshold {q : Query} (hq : q ∈ s.heap) : q.matchDist ≤ 3 := by
  obtain ⟨p, hp⟩ := List.mem_iff_getElem?.1 hq
  obtain ⟨a, -, hfor⟩ := (forall₂_getElem h.asked p).1 q hp
  exact hfor.matchDist ▸ hfor.dist

/-- the record of a document is that of a call -/
theorem document (hres : s.docs.get node = some res) : (res.docId, words 32 res.docStr) ∈ documents as :=
  List.mem_filterMap.2 ⟨_, h.records.texts.called node res hres, rfl⟩

/-- the words of a parsed record are those of the document -/
theorem mem_words (hd : (d, doc) ∈ documents as) (hres : s.docs.get node = some res) (hid : res.docId = d)
    (hparsed : res.Parsed) (w : Word) : w ∈ res.words.toList ↔ w ∈ doc := by
  have hcall := h.records.texts.called node res hres
  have htext : ValidText res.docStr := h.valid.acts _ hcall
  have hpair := List.inj_on_of_nodup_map h.valid.docs (h.document hres) hd hid
  obtain ⟨ws, hws, hmem⟩ := hparsed
  rw [tokens_valid htext] at hws
  rw [hmem, ← Option.some.inj hws, (Prod.mk.inj hpair).2]

theorem mem_documents_of_submitted (hd : d ∈ s.submitted) : d ∈ (documents as).map Prod.fst := by
  rw [h.way.submitted]
  exact List.mem_append_left _ hd

/-- an answer is stored for a document that was submitted -/
theorem submitted_of_stored (hd : d ∈ s.stored.map Prod.fst) : d ∈ s.submitted := by
  rw [← Multiset.mem_coe, ← h.way.conserved.stored]
  exact Multiset.mem_add.2 (.inr hd)

/-- no answer is stored for a document with a `match_doc` before that point -/
theorem not_stored {i : Fin n} (hj : .matchDoc node ∈ s.jobsBefore .stored i) (hres : s.docs.get node = some res) :
    res.docId ∉ s.stored.map Prod.fst := by
  intro hstored
  have hbefore : res.docId ∈ s.docsBefore .stored := mem_before.2 ⟨i, _, hj, docId_of_get hres⟩
  have hnodup : (s.docsBefore .stored + (s.stored.map Prod.fst : Multiset ℕ)).Nodup := by
    rw [h.way.conserved.stored]
    exact h.way.submitted_nodup h.valid.docs
  exact Multiset.disjoint_left.1 (Multiset.nodup_add.1 hnodup).2.2 hbefore hstored

/-- when all jobs are done and the client is not in `MatchDocument`, every answer is stored -/
theorem all_stored (hdone : s.jobs.Done) (hhand : s.inHand = []) (hd : d ∈ (documents as).map Prod.fst) :
    d ∈ s.stored.map Prod.fst := by
  have hbefore : s.docsBefore .stored = 0 := by
    refine Multiset.eq_zero_of_forall_notMem fun x hx => ?_
    obtain ⟨i, j, hj, -⟩ := mem_before.1 hx
    have hmem := jobsBefore_subset s .stored i hj
    rw [hdone i] at hmem
    cases hmem
  have hstored := h.way.conserved.stored
  rw [hbefore, zero_add] at hstored
  rw [h.way.submitted, hhand, List.append_nil] at hd
  rwa [← Multiset.mem_coe, hstored]

/-- the queries of the snapshot that fit the document, as they were asked -/
theorem snap_fits (id : ℕ) : (∃ (p : ℕ) (q : Query), Snap as d p ∧ s.heap[p]? = some q ∧ q.id = id ∧ q.Fits doc) ↔
    ∃ b ∈ activeAt as d, b.id = id ∧ b.Matches doc := by
  constructor
  · rintro ⟨p, q, ⟨b, hb, hp⟩, hq, rfl, hfits⟩
    obtain ⟨b', hp', hfor⟩ := (forall₂_getElem h.asked p).1 q hq
    cases hp.symm.trans hp'
    exact ⟨b, hb, hfor.id.symm, (hfor.fits doc).1 hfits⟩
  · rintro ⟨b, hb, rfl, hmatches⟩
    obtain ⟨p, hp⟩ := List.mem_iff_getElem?.1 (activeAt_subset as d hb)
    obtain ⟨q, hq, hfor⟩ := (forall₂_getElem h.asked p).2 b hp
    exact ⟨p, q, ⟨b, hb, hp⟩, hq, hfor.id, (hfor.fits doc).2 hmatches⟩

/-- a query that `StartQuery` is done with is counted -/
theorem mem_counted {p : ℕ} {q : Query} (hq : s.heap[p]? = some q) (hnew : s.client.newQuery ≠ some p) :
    q ∈ s.counted := by
  unfold State.counted
  split
  · next p' rest hc =>
    obtain ⟨hlen, -⟩ := h.registry.new p' (by rw [hc]; rfl)
    have hne : p ≠ p' := by
      rintro rfl
      exact hnew (by rw [hc]; rfl)
    have hlt := (List.getElem?_eq_some_iff.1 hq).1
    refine List.mem_of_getElem? (i := p) ?_
    rw [List.getElem?_dropLast, if_pos (by omega), hq]
  · exact List.mem_of_getElem? hq

/-- the job at the head of a queue is for a word of the document -/
theorem head_job (hd : (d, doc) ∈ documents as) {i : Fin n} {r : DocRun} (hr : s.docRun i = some (node, r))
    (hres : s.docs.get node = some res) (hid : res.docId = d) {j : Fin 3} {job : MatchJob}
    (hj : (r.sub.queue j).head? = some job) :
    ∃ t w, matchJob t w = job ∧ w ∈ doc ∧ minWordLength ≤ w.length ∧ w.length ≤ maxWordLength := by
  obtain ⟨node', res', hr', hres', hparsed, hcall, hjobs⟩ := h.records.docRun (docRun_some.1 hr).1
  cases hr.symm.trans hr'
  cases hres.symm.trans hres'
  obtain ⟨t, w, hw, hjob⟩ := mem_matchJobs_iff.1 (hjobs job (.inr ⟨j, List.mem_of_mem_head? hj⟩))
  obtain ⟨-, -, -, hlen⟩ := Records.word h.valid.text hparsed hcall hw
  exact ⟨t, w, hjob, (h.mem_words hd hres hid hparsed w).1 hw, hlen⟩

/-- a `match_doc` in which a worker is in a job has not stored its answer, and the call for its document has returned -/
theorem run_open {i : Fin n} {r : DocRun} (hr : s.docRun i = some (node, r)) (hres : s.docs.get node = some res)
    {queries : List Query} {snap : ℕ → Prop} {rt : ResultTable} (hm : Matching queries snap doc rt r) {j : Fin 3}
    (hj : r.tasks j ≠ .idle) :
    res.docId ∉ s.stored.map Prod.fst ∧ ∀ str, s.client ≠ .clearing res.docId str := by
  obtain ⟨hw, hhead⟩ := docRun_some.1 hr
  -- its queue is not empty, so `match_doc` is before the point where it stores the answer
  have hqueue := ((h.records.control.docRun_ok hr).busy hj).2
  have hpc : (∃ rest, r.pc = .submitting rest) ∨ r.pc = .waiting := by
    by_contra hno
    rw [not_or, not_exists] at hno
    exact hqueue (hm.past hno.1 hno.2 j)
  have hbefore : .matchDoc node ∈ s.jobsBefore .stored i := by
    have hjobs : s.jobsBefore .stored i = s.jobs.queue i := by
      simp only [State.jobsBefore, hw, remaining]
      rcases hpc with ⟨rest, hpc⟩ | hpc
      · rw [hpc]
        rfl
      · rw [hpc]
        rfl
    rw [hjobs]
    exact List.mem_of_mem_head? hhead
  refine ⟨h.not_stored hbefore hres, fun str hc => ?_⟩
  have hsub : res.docId ∈ s.submitted := by
    rw [← Multiset.mem_coe, ← h.way.conserved.stored]
    exact Multiset.mem_add.2 (.inl (mem_before.2 ⟨i, _, hbefore, docId_of_get hres⟩))
  have hhand : s.inHand = [res.docId] := by
    unfold State.inHand
    rw [hc]
  have hnodup := h.valid.docs
  rw [h.way.submitted, hhand, List.nodup_append] at hnodup
  exact hnodup.2.2 _ hsub _ (List.mem_singleton_self _) rfl

end Known

end Known

/-! ## What a step does to queries, records and answers -/

section Steps

variable {n : ℕ} [NeZero n] {s s' : State n} {a : Act n} {as : List (Act n)}

theorem Move.newQuery (hm : Move s a s') {p : ℕ} (hp : s'.client.newQuery = some p) :
    s.client.newQuery = some p ∨ p = s.heap.length := by
  cases hm
  case startQuery =>
    cases hp
    exact .inr rfl
  case submitJob hcl | count hcl _ =>
    cases hp
    exact .inl (by rw [hcl]; rfl)
  case matchDocument =>
    dsimp only at hp
    split at hp <;> cases hp
  case badQuery | endQuery | getNextAvailRes | register | endUnknown | ended | cleared | append | parse | submitDoc |
      peekedNone | peeked | read | dequeued =>
    cases hp
  all_goals exact .inl hp

/-- a query is ended only when all jobs are done, in no call of `MatchDocument` -/
theorem Move.heap_cases (hm : Move s a s') :
    s'.heap = s.heap ∨ (∃ q : Query, s'.heap = s.heap ++ [q]) ∨ (s.jobs.Done ∧ s.inHand = []) := by
  cases hm
  case startQuery => exact .inr (.inl ⟨_, rfl⟩)
  case ended hcl hdone _ _ =>
    refine .inr (.inr ⟨hdone, ?_⟩)
    unfold State.inHand
    rw [hcl]
    rfl
  all_goals exact .inl rfl

theorem Move.stored_subset (hm : Move s a s') : s.stored ⊆ s'.stored := by
  cases hm
  case store => exact List.subset_append_left _ _
  all_goals exact List.Subset.refl _

/-- `MatchDocument` goes on from its `wait_all_finish` when all jobs are done -/
theorem Move.clearing (hm : Move s a s') {d : ℕ} {str : List UInt8} (hc : s.client = .clearing d str)
    (hc' : s'.client ≠ .clearing d str) : s.jobs.Done := by
  cases hm
  case cleared hdone => exact hdone
  case badQuery hcl _ | startQuery hcl _ | endQuery hcl | matchDocument hcl | getNextAvailRes hcl _ | submitJob hcl |
      count hcl _ | register hcl _ _ | endUnknown hcl _ _ | ended hcl _ _ _ | append hcl | parse hcl _ _ |
      submitDoc hcl _ | peekedNone hcl _ | peeked hcl _ | read hcl _ _ | dequeued hcl _ =>
    cases hc.symm.trans hcl
  all_goals exact absurd hc hc'

omit [NeZero n] in
/-- no insertion becomes pending but those of a new query -/
theorem InsertStep.not_pending (hi : InsertStep s s') {j : Job} (hnode : j.node = none)
    (hnew : ∀ t ws, j ∉ insertJobs t s.heap.length ws) (h : ¬ j.Pending s) : ¬ j.Pending s' := by
  intro hp
  cases hi with
  | same hindex hheap hpend hflag => exact h ((hpend j hnode).1 hp)
  | query q hindex hheap hpend hflag => exact ((hpend j hnode).1 hp).elim h (hnew _ _)
  | insert j₀ hmakes hheap hmem hpend hflag => exact h ((hpend j).2 (.inr hp))

/-- a record keeps its results, but for a new one and for a word that is recorded -/
theorem Move.record_cases (hm : Move s a s') {node : ℕ} {res' : DocumentResults} (hres' : s'.docs.get node = some res') :
    (s.docs.get node = none ∧ ∃ capacity, res'.results = Table.ofCapacity uintHash capacity) ∨
    ∃ res, s.docs.get node = some res ∧ res'.docId = res.docId ∧ (res'.results = res.results ∨
      ∃ i j r p u calls keys, s.docRun i = some (node, r) ∧ r.tasks j = .adding ((p, u) :: calls) keys ∧
        addQueryToDocResults s.heap res.results p u = some res'.results) := by
  have hmodify : ∀ node₀ (f : DocumentResults → DocumentResults), (s.docs.modify node₀ f).get node = some res' →
      (∀ res, (f res).docId = res.docId ∧ (f res).results = res.results) →
      ∃ res, s.docs.get node = some res ∧ res'.docId = res.docId ∧ res'.results = res.results := by
    intro node₀ f hget hf
    obtain ⟨res, hres, heq⟩ := DList.modify_keeps (fun res => (res.docId, res.results))
      (fun res => by obtain ⟨hid, hresults⟩ := hf res; simp only [hid, hresults]) hget
    simp only [Prod.mk.injEq] at heq
    exact ⟨res, hres, heq⟩
  cases hm
  case append d str hcl =>
    rcases DList.append_cases hres' with ⟨rfl, rfl⟩ | ⟨-, hold⟩
    · refine .inl ⟨?_, _, rfl⟩
      by_contra hsome
      obtain ⟨res, hres⟩ := Option.ne_none_iff_exists'.1 hsome
      exact absurd (DList.lt_fresh_of_get hres) (lt_irrefl _)
    · exact .inr ⟨res', hold, rfl, .inl rfl⟩
  case parse | store =>
    obtain ⟨res, hres, hid, hsame⟩ := hmodify _ _ hres' fun _ => ⟨by rfl, by rfl⟩
    exact .inr ⟨res, hres, hid, .inl hsame⟩
  case add i j node₀ r p u calls keys res results hr ht hres ha =>
    rcases DList.modify_cases hres' with ⟨rfl, res₁, hres₁, rfl⟩ | ⟨-, hold⟩
    · cases hres.symm.trans hres₁
      exact .inr ⟨res, hres, rfl, .inr ⟨i, j, r, p, u, calls, keys, hr, ht, ha⟩⟩
    · exact .inr ⟨res', hold, rfl, .inl rfl⟩
  case unlink hr hpc hd => exact .inr ⟨res', DList.get_of_remove hd hres', rfl, .inl rfl⟩
  all_goals exact .inr ⟨res', hres', rfl, .inl rfl⟩

end Steps

/-! ## The invariant -/

/-- the ids of the queries of the snapshot that match the document, each once -/
def AnswerOf {n : ℕ} (as : List (Act n)) (d : ℕ) (doc : List Word) (ids : List ℕ) : Prop :=
  ids.Nodup ∧ ∀ id, id ∈ ids ↔ ∃ q ∈ activeAt as d, q.id = id ∧ q.Matches doc

/-- a document whose `MatchDocument` has been called -/
structure Seen {n : ℕ} (d : ℕ) (doc : List Word) (as : List (Act n)) (s : State n) : Prop where
  new : ∀ p, Snap as d p → s.client.newQuery ≠ some p
  active : d ∉ s.stored.map Prod.fst → ∀ (p : ℕ) (q : Query), s.heap[p]? = some q → Snap as d p → q.active = true
  others : d ∉ s.stored.map Prod.fst → ∀ (p : ℕ) (q : Query), s.heap[p]? = some q → q.active = true →
    Snap as d p ∨ ¬ q.Fits doc
  inserted : (∀ str, s.client ≠ .clearing d str) → ∀ (p : ℕ) (q : Query), s.heap[p]? = some q → Snap as d p →
    ∀ j ∈ insertJobs q.matchType p q.uniqueWords.toList, ¬ j.Pending s
  results : ∀ node res, s.docs.get node = some res → res.docId = d →
    ResultsOk s.heap (MayRecord s.heap (Snap as d) doc) res.results
  runs : ∀ i node r, s.docRun i = some (node, r) → ∀ res, s.docs.get node = some res → res.docId = d →
    Matching s.heap (Snap as d) doc res.results r
  answers : ∀ ids, (d, ids) ∈ s.stored → AnswerOf as d doc ids

/-- no query is started that matches the document, from the call of `MatchDocument` until the answer is stored -/
def Apart {n : ℕ} (d : ℕ) (doc : List Word) (as : List (Act n)) (s : State n) (a : Act n) : Prop :=
  ∀ q, a.asked = some q → d ∈ (documents as).map Prod.fst → d ∉ s.stored.map Prod.fst → ¬ q.Matches doc

section Seen

variable {n : ℕ} [NeZero n] {s s' : State n} {a : Act n} {as : List (Act n)} {d : ℕ} {doc : List Word}

omit [NeZero n] in
theorem mem_ids (hd : (d, doc) ∈ documents as) : d ∈ (documents as).map Prod.fst := List.mem_map_of_mem hd

/-- a step changes `active` of a query in the heap at most -/
theorem Move.old_query (hm : Move s a s') {p : ℕ} (hlt : p < s.heap.length) {q' : Query} (hq' : s'.heap[p]? = some q') :
    ∃ q : Query, s.heap[p]? = some q ∧ q.started = q'.started := by
  obtain ⟨b, hb⟩ := hm.grows p _ (List.getElem?_eq_getElem hlt)
  cases hq'.symm.trans hb
  exact ⟨_, List.getElem?_eq_getElem hlt, rfl⟩

namespace Seen

variable (h : Known as s) (h' : Known (as ++ [a]) s') (hm : Move s a s') (hd : (d, doc) ∈ documents as)
  (hs : Seen d doc as s)

include h h' hm hd hs

/-- the queries of the snapshot stay active, and the others with the flag do not match, until the answer is stored -/
theorem active_step (hapart : Apart d doc as s a) (hopen : d ∉ s'.stored.map Prod.fst) (p : ℕ) (q' : Query)
    (hq' : s'.heap[p]? = some q') : (Snap as d p → q'.active = true) ∧
      (q'.active = true → Snap as d p ∨ ¬ q'.Fits doc) := by
  have hopen : d ∉ s.stored.map Prod.fst := fun hmem => hopen (List.map_subset _ hm.stored_subset hmem)
  rcases hm.heap_cases with heq | ⟨q, heq⟩ | ⟨hdone, hhand⟩
  · rw [heq] at hq'
    exact ⟨hs.active hopen p q' hq', hs.others hopen p q' hq'⟩
  · rw [heq] at hq'
    rcases getElem?_snoc hq' with hold | ⟨rfl, rfl⟩
    · exact ⟨hs.active hopen p q' hold, hs.others hopen p q' hold⟩
    · -- the query that is started now
      refine ⟨fun hsnap => absurd (h.snap_lt hsnap) (lt_irrefl _), fun _ => .inr fun hfits => ?_⟩
      obtain ⟨b, hb, hfor⟩ := (forall₂_getElem h'.asked s.heap.length).1 q' (by rw [heq]; exact List.getElem?_concat_length)
      rw [started_snoc, List.getElem?_append_right (le_of_eq h.asked.length_eq.symm)] at hb
      have hask : a.asked = some b := by
        have hmem := List.mem_of_getElem? hb
        rwa [Option.mem_toList] at hmem
      exact hapart b hask (mem_ids hd) hopen ((hfor.fits doc).1 hfits)
  · exact absurd (h.all_stored hdone hhand (mem_ids hd)) hopen

omit h' hd in
/-- from the end of `MatchDocument`'s wait on, the words of the snapshot are inserted -/
theorem inserted_step (hc' : ∀ str, s'.client ≠ .clearing d str) (p : ℕ) (q' : Query) (hq' : s'.heap[p]? = some q')
    (hp : Snap as d p) (j : Job) (hj : j ∈ insertJobs q'.matchType p q'.uniqueWords.toList) : ¬ j.Pending s' := by
  obtain ⟨q, hq, hstarted⟩ := hm.old_query (h.snap_lt hp) hq'
  have hj₀ : j ∈ insertJobs q.matchType p q.uniqueWords.toList := by rwa [Query.started_insertJobs hstarted]
  refine (hm.insertStep h.records.control).not_pending (insertJobs_node hj) (fun t ws hnew => ?_) ?_
  · obtain ⟨u, -, heq⟩ := mem_insertJobs.1 hj
    obtain ⟨u', -, heq'⟩ := mem_insertJobs.1 hnew
    exact absurd (Slot.job_inj.1 (heq.trans heq'.symm)).2.2 (Nat.ne_of_lt (h.snap_lt hp))
  · by_cases hc : ∃ str, s.client = .clearing d str
    · -- `MatchDocument` has waited for them
      obtain ⟨str, hc⟩ := hc
      have hdone := hm.clearing hc (hc' str)
      rintro (⟨p', rest, hstart, -⟩ | ⟨i, hi⟩)
      · cases hc.symm.trans hstart
      · have hmem := jobsBefore_subset s _ i hi
        rw [hdone i] at hmem
        cases hmem
    · exact hs.inserted (fun str hc' => hc ⟨str, hc'⟩) p q hq hp j hj₀

omit [NeZero n] h' hm hd in
/-- the next call of `add_query_to_doc_results` is defined; the table stays sound, and keeps what is recorded in it -/
theorem add_defined {i : Fin n} {j : Fin 3} {node : ℕ} {r : DocRun} {res : DocumentResults}
    (hr : s.docRun i = some (node, r)) (hres : s.docs.get node = some res) (hid : res.docId = d) {p : ℕ} {u : Word}
    {calls : List (ℕ × Word)} {keys : List ℕ} (ht : r.tasks j = .adding ((p, u) :: calls) keys) :
    ∃ rt, addQueryToDocResults s.heap res.results p u = some rt ∧
      ResultsOk s.heap (MayRecord s.heap (Snap as d) doc) rt ∧ Recorded s.heap rt p u ∧
      ∀ p' u', Recorded s.heap res.results p' u' → Recorded s.heap rt p' u' := by
  have hmay := (hs.runs i node r hr res hres hid).calls j (p, u) (by rw [ht]; exact List.mem_cons_self)
  obtain ⟨q, hq⟩ : ∃ q, s.heap[p]? = some q := hmay.imp fun _ hmay => hmay.1
  exact add_spec h.distinct (hs.results node res hres hid) (fun _ _ _ hmay hq => hmay.own hq) hq hmay

omit h' hd in
/-- what is recorded for the document may be recorded -/
theorem results_step (node : ℕ) (res' : DocumentResults)
    (hres' : s'.docs.get node = some res') (hid : res'.docId = d) :
    ResultsOk s'.heap (MayRecord s'.heap (Snap as d) doc) res'.results := by
  suffices hold : ResultsOk s.heap (MayRecord s.heap (Snap as d) doc) res'.results from
    hold.mono hm.grows fun _ _ hmay => hmay.mono hm.grows
  rcases hm.record_cases hres' with ⟨-, capacity, heq⟩ | ⟨res, hres, hid', heq | ⟨i, j, r, p, u, calls, keys, hr, ht, ha⟩⟩
  · rw [heq]
    exact resultsOk_empty capacity
  · rw [heq]
    exact hs.results node res hres (hid' ▸ hid)
  · obtain ⟨rt, hrt, hok, -⟩ := add_defined h hs hr hres (hid' ▸ hid) ht
    cases ha.symm.trans hrt
    exact hok

end Seen

/-! ### A running `match_doc` -/

namespace Seen

variable {i : Fin n} {j : Fin 3} {node : ℕ} {r : DocRun} {res : DocumentResults} (h : Known as s)
  (hd : (d, doc) ∈ documents as) (hs : Seen d doc as s) (hr : s.docRun i = some (node, r))
  (hres : s.docs.get node = some res) (hid : res.docId = d)

include h hs in
omit [NeZero n] in
/-- the words of the snapshot are in the indexes -/
theorem posts (hc : ∀ str, s.client ≠ .clearing d str) {p : ℕ} {q : Query} (hq : s.heap[p]? = some q) (hp : Snap as d p)
    {u : Word} (hu : u ∈ q.uniqueWords.toList) : s.index.Posts (Slot.ofType q.matchType u) u p :=
  h.index.posts hq hu (hs.inserted hc p q hq hp _ (mem_insertJobs.2 ⟨u, hu, rfl⟩))

include h hd hs hr hres hid

omit [NeZero n] in
theorem readKeys_step {ix : TreeRef} {w : Word} {t : MatchType} (ht : r.tasks j = .called)
    (hj : (r.sub.queue j).head? = some (.matchQueries ix w t)) :
    Matching s.heap (Snap as d) doc res.results
      { r with tasks := Function.update r.tasks j (.searching (searchKeys s.thresholdCounters t)) } := by
  have hmatching := hs.runs i node r hr res hres hid
  obtain ⟨hopen, -⟩ := h.run_open hr hres hmatching (j := j) (by rw [ht]; exact nofun)
  rw [hid] at hopen
  obtain ⟨t', w', hjob, -⟩ := h.head_job hd hr hres hid hj
  obtain ⟨htype, htree⟩ : t' = t ∧ t ≠ .exactMatch := by cases t' <;> cases hjob <;> exact ⟨rfl, nofun⟩
  refine hmatching.task (fun _ _ => id) (fun _ hc => nomatch hc) (fun key hkey => ⟨?_, ix, w, t, hj⟩) ?_
  · obtain ⟨q, hq, hactive⟩ := (h.counted.searchKeys htree key).1 hkey
    have hle := h.threshold (counted_subset s hq)
    simp only [Query.isActive, Bool.and_eq_true, decide_eq_true_eq] at hactive
    omega
  · -- the counter of a query of the snapshot is not 0
    intro p q u w₁ hp hq _ _ hhead _
    refine .inr ((h.counted.searchKeys htree q.matchDist).2 ⟨q, h.mem_counted hq (hs.new p hp), ?_⟩)
    have htype₁ : q.matchType = t := by
      have hjob₁ := Option.some.inj (hhead.symm.trans hj)
      cases hq : q.matchType <;> rw [hq] at hjob₁ <;> cases hjob₁ <;> rfl
    simp [Query.isActive, hs.active hopen p q hq hp, htype₁]

omit [NeZero n] in
theorem readExact_step {w : Word} (ht : r.tasks j = .called) (hj : (r.sub.queue j).head? = some (.matchExact w)) :
    Matching s.heap (Snap as d) doc res.results
      { r with tasks := Function.update r.tasks j (.adding (s.index.searchExact s.heap w) []) } := by
  have hmatching := hs.runs i node r hr res hres hid
  obtain ⟨hopen, hclear⟩ := h.run_open hr hres hmatching (j := j) (by rw [ht]; exact nofun)
  rw [hid] at hopen hclear
  obtain ⟨t', w', hjob, hw, -⟩ := h.head_job hd hr hres hid hj
  obtain ⟨-, rfl⟩ := @matchJob_inj t' .exactMatch w' w hjob
  obtain ⟨hsound, hcomplete⟩ := searchExact_finds h.index w'
  refine hmatching.task (fun _ _ => id) (fun c hc => ?_) (fun _ hkey => nomatch hkey) ?_
  · obtain ⟨q, hq, hactive, hu, hmatch⟩ := hsound c hc
    exact ⟨q, hq, hu, ⟨w', hw, hmatch⟩, hs.others hopen c.1 q hq hactive⟩
  · intro p q u w₁ hp hq hu hmatch hhead _
    obtain ⟨htype, rfl⟩ := @matchJob_inj _ .exactMatch _ w' (Option.some.inj (hhead.symm.trans hj))
    exact .inr (.inl (hcomplete p u q hq (hs.active hopen p q hq hp) htype hmatch (posts h hs hclear hq hp hu)))

omit [NeZero n] in
theorem search_step {ix : TreeRef} {w : Word} {t : MatchType} {key : ℕ} {keys : List ℕ} {calls : List (ℕ × Word)}
    (ht : r.tasks j = .searching (key :: keys)) (hj : (r.sub.queue j).head? = some (.matchQueries ix w t))
    (hsearch : s.index.search s.heap ix key w = some calls) :
    Matching s.heap (Snap as d) doc res.results { r with tasks := Function.update r.tasks j (.adding calls keys) } := by
  have hmatching := hs.runs i node r hr res hres hid
  obtain ⟨hopen, hclear⟩ := h.run_open hr hres hmatching (j := j) (by rw [ht]; exact nofun)
  rw [hid] at hopen hclear
  have hkeys : ∀ k ∈ key :: keys, k < 2 ^ 30 := fun k hk => (hmatching.keys j k (by rw [ht]; exact hk)).1
  obtain ⟨t', w', hjob, hw, hlen⟩ := h.head_job hd hr hres hid hj
  obtain ⟨rfl, rfl⟩ : t' = t ∧ w' = w := by cases t' <;> cases hjob <;> exact ⟨rfl, rfl⟩
  obtain ⟨hsound, hcomplete⟩ := search_finds h.index h.wordsFit hjob hlen (hkeys key List.mem_cons_self) hsearch
  refine hmatching.task (fun _ _ => id) (fun c hc => ?_)
    (fun k hk => ⟨hkeys k (List.mem_cons_of_mem _ hk), ix, w', t', hj⟩) ?_
  · obtain ⟨q, hq, hactive, hu, hmatch⟩ := hsound c hc
    exact ⟨q, hq, hu, ⟨w', hw, hmatch⟩, hs.others hopen c.1 q hq hactive⟩
  · intro p q u w₁ hp hq hu hmatch hhead hdue
    rw [ht] at hdue
    refine .inr ((List.mem_cons.1 hdue).imp_left fun hkey => ?_)
    obtain ⟨htype, rfl⟩ := matchJob_inj ((Option.some.inj (hhead.symm.trans hj)).trans hjob.symm)
    exact hcomplete p u q hq (hs.active hopen p q hq hp) htype hkey hu hmatch (posts h hs hclear hq hp hu)

omit hd [NeZero n] in
theorem add_step {p : ℕ} {u : Word} {calls : List (ℕ × Word)} {keys : List ℕ} {results : ResultTable}
    (ht : r.tasks j = .adding ((p, u) :: calls) keys)
    (ha : addQueryToDocResults s.heap res.results p u = some results) :
    Matching s.heap (Snap as d) doc results { r with tasks := Function.update r.tasks j (.adding calls keys) } := by
  have hmatching := hs.runs i node r hr res hres hid
  obtain ⟨rt, hrt, -, hnew, hrec⟩ := add_defined h hs hr hres hid ht
  cases ha.symm.trans hrt
  refine hmatching.task hrec (fun c hc => ?_) (fun k hk => ?_) ?_
  · exact hmatching.calls j c (by rw [ht]; exact List.mem_cons_of_mem _ hc)
  · exact hmatching.keys j k (by rw [ht]; exact hk)
  · intro p' q' u' w _ _ _ _ _ hdue
    rw [ht] at hdue
    rcases hdue with hcall | hkey
    · rcases List.mem_cons.1 hcall with heq | hcall
      · cases heq
        exact .inl hnew
      · exact .inr (.inl hcall)
    · exact .inr (.inr hkey)

end Seen

omit [NeZero n] in
/-- the run of a worker after a step of worker `i` -/
theorem docRun_setWork {t : State n} {i k : Fin n} {w : Work} {node : ℕ} {r : DocRun}
    (h : (t.setWork i w).docRun k = some (node, r)) : (k ≠ i ∧ t.docRun k = some (node, r)) ∨
      (k = i ∧ w = .matching r ∧ (t.jobs.queue i).head? = some (.matchDoc node)) := by
  obtain ⟨hw, hhead⟩ := docRun_some.1 h
  by_cases hk : k = i
  · subst hk
    exact .inr ⟨rfl, (Function.update_self ..).symm.trans hw, hhead⟩
  · exact .inl ⟨hk, docRun_some.2 ⟨(Function.update_of_ne hk ..).symm.trans hw, hhead⟩⟩

namespace Seen

variable (h : Known as s) (hs : Seen d doc as s)

include h hs

omit [NeZero n] in
/-- a run goes on as it was -/
theorem run_same (hg : Grows s.heap s'.heap) {k : Fin n} {node : ℕ} {r : DocRun} (hr : s.docRun k = some (node, r))
    {res' : DocumentResults} (hid : res'.docId = d)
    (hres : ∃ res, s.docs.get node = some res ∧ res.docId = res'.docId ∧ res.results = res'.results) :
    Matching s'.heap (Snap as d) doc res'.results r := by
  obtain ⟨res, hres, hid', hresults⟩ := hres
  rw [← hresults]
  exact (hs.runs k node r hr res hres (hid'.trans hid)).mono hg fun p hp => h.snap_some hp

omit [NeZero n] in
/-- worker `i` goes on in its run, and only the record of its document changes -/
theorem run_step {i : Fin n} {node₀ : ℕ} {r₀ r₁ : DocRun} (hr : s.docRun i = some (node₀, r₀))
    {docs : DList DocumentResults} (hother : ∀ node, node ≠ node₀ → docs.get node = s.docs.get node)
    (hown : ∀ res, docs.get node₀ = some res → res.docId = d → Matching s.heap (Snap as d) doc res.results r₁)
    (k : Fin n) (node : ℕ) (r : DocRun) (hr' : ({ s with docs := docs }.setWork i (.matching r₁)).docRun k = some (node, r))
    (res : DocumentResults) (hres : docs.get node = some res) (hid : res.docId = d) :
    Matching s.heap (Snap as d) doc res.results r := by
  rcases docRun_setWork hr' with ⟨hk, hold⟩ | ⟨rfl, hw, hhead⟩
  · have hne := h.records.nodes.ne hk (mem_jobsBefore_run hold) (mem_jobsBefore_run hr)
    exact run_same h hs (Grows.refl _) hold hid ⟨res, (hother node hne).symm.trans hres, rfl, rfl⟩
  · cases hw
    cases (docRun_some.1 hr).2.symm.trans hhead
    exact hown res hres hid

/-- every run for the document is kept -/
theorem runs_step (hm : Move s a s') (hd : (d, doc) ∈ documents as) (k : Fin n) (node : ℕ) (r : DocRun)
    (hr' : s'.docRun k = some (node, r)) (res : DocumentResults) (hres' : s'.docs.get node = some res)
    (hid : res.docId = d) : Matching s'.heap (Snap as d) doc res.results r := by
  have hc := h.records.control
  have hsame : ∀ {t : State n} {k node r res}, t.docRun k = some (node, r) → t.jobs = s.jobs → t.work = s.work →
      s.docs.get node = some res → res.docId = d → Matching s'.heap (Snap as d) doc res.results r := by
    intro t k node r res hr hjobs hwork hres hid
    refine run_same h hs hm.grows (k := k) (docRun_some.2 ?_) hid ⟨res, hres, rfl, rfl⟩
    rw [← hjobs, ← hwork]
    exact docRun_some.1 hr
  cases hm
  case submitJob j rest hcl =>
    obtain ⟨hw, hhead⟩ := docRun_some.1 hr'
    exact run_same h hs (Grows.refl _) (docRun_some.2 ⟨hw, (submit_running hc _ hw).symm.trans hhead⟩) hid
      ⟨res, hres', rfl, rfl⟩
  case submitDoc =>
    obtain ⟨hw, hhead⟩ := docRun_some.1 hr'
    exact run_same h hs (Grows.refl _) (docRun_some.2 ⟨hw, (submit_running hc _ hw).symm.trans hhead⟩) hid
      ⟨res, hres', rfl, rfl⟩
  case append hcl =>
    obtain ⟨res₀, hres₀⟩ := h.records.nodes.live (mem_jobsBefore_run hr')
    have hget := (DList.append_cases hres').resolve_left fun h => Nat.ne_of_lt (DList.lt_fresh_of_get hres₀) h.1
    exact hsame hr' (by rfl) (by rfl) hget.2 hid
  case parse node₀ _ _ hcl _ _ =>
    have hne := h.records.nodes.client_ne (mem_jobsBefore_run hr') (by rw [hcl]; exact List.mem_cons_self)
    have hget := (DList.modify_cases hres').resolve_left fun h => hne h.1.symm
    exact hsame hr' (by rfl) (by rfl) hget.2 hid
  case start i jobs hj =>
    obtain ⟨-, -, rfl⟩ := Jobs.start_some hj
    rcases docRun_setWork hr' with ⟨-, hold⟩ | ⟨-, hw, -⟩
    · exact hsame (t := s) hold rfl rfl hres' hid
    · cases hw
  case finish i jobs hw hj =>
    obtain ⟨-, rfl⟩ := Jobs.finish_some hj
    rcases docRun_setWork hr' with ⟨hk, hold⟩ | ⟨-, hw, -⟩
    · obtain ⟨hw', hhead⟩ := docRun_some.1 hold
      exact hsame (t := s) (docRun_some.2 ⟨hw', by simpa [hk] using hhead⟩) rfl rfl hres' hid
    · cases hw
  case insertTree | insertTable =>
    rcases docRun_setWork hr' with ⟨-, hold⟩ | ⟨-, hw, -⟩
    · exact hsame hold (by rfl) (by rfl) hres' hid
    · cases hw
  case unlink i c node₀ r₀ docs hr hpc hdocs =>
    rcases docRun_setWork hr' with ⟨hk, hold⟩ | ⟨-, hw, -⟩
    · exact hsame hold (by rfl) (by rfl) (DList.get_of_remove hdocs hres') hid
    · cases hw
  case beginDoc i c node₀ res₀ hw hj hres₀ =>
    rcases docRun_setWork hr' with ⟨-, hold⟩ | ⟨rfl, hnew, hhead⟩
    · exact hsame (t := s) hold rfl rfl hres' hid
    · cases hnew
      cases hj.symm.trans hhead
      cases hres₀.symm.trans hres'
      have hqueue : s.jobsBefore .unlinked k = s.jobs.queue k := by simp only [State.jobsBefore, hw]; rfl
      have hparsed : res.Parsed := h.records.texts.parsed node res hres' fun hcl =>
        h.records.nodes.client_ne (hqueue ▸ List.mem_of_mem_head? hj) (hcl ▸ List.mem_singleton_self node) rfl
      exact matching_init fun w hw => (h.mem_words hd hres' hid hparsed w).2 hw
  case submitMatch i c node₀ r₀ j rest hr hpc =>
    exact run_step h hs hr (fun _ _ => rfl)
      (fun res hres hid => (hs.runs i node₀ r₀ hr res hres hid).submit (hc.docRun_ok hr) hpc) k node r hr' res hres' hid
  case waitMatch i c node₀ r₀ hr hpc =>
    exact run_step h hs hr (fun _ _ => rfl)
      (fun res hres hid => (hs.runs i node₀ r₀ hr res hres hid).wait hpc) k node r hr' res hres' hid
  case store i c node₀ r₀ res₀ hr hpc hdone hres₀ ho =>
    refine run_step h hs hr (fun node hne => (DList.get_modify ..).trans (if_neg hne)) (fun res hres hid => ?_) k node r
      hr' res hres' hid
    obtain ⟨-, res₁, hres₁, rfl⟩ := (DList.modify_cases hres).resolve_right fun h => h.1 rfl
    cases hres₀.symm.trans hres₁
    exact (hs.runs i node₀ r₀ hr res₀ hres₀ hid).pass hdone (by simp [hpc]) _
  case move i c node₀ r₀ res₀ q hr hpc hres₀ hq =>
    exact run_step h hs hr (fun _ _ => rfl) (fun res hres hid =>
      have hold := hs.runs i node₀ r₀ hr res hres hid
      hold.pass (hold.past (by simp [hpc]) (by simp [hpc])) (by simp [hpc]) _)
      k node r hr' res hres' hid
  case moved i c node₀ r₀ x q hr hpc hq =>
    exact run_step h hs hr (fun _ _ => rfl) (fun res hres hid =>
      have hold := hs.runs i node₀ r₀ hr res hres hid
      hold.pass (hold.past (by simp [hpc]) (by simp [hpc])) (by simp [hpc]) _)
      k node r hr' res hres' hid
  case startTask i j node₀ r₀ sub hr hsub =>
    exact run_step h hs hr (fun _ _ => rfl)
      (fun res hres hid => (hs.runs i node₀ r₀ hr res hres hid).start hsub) k node r hr' res hres' hid
  case readKeys i j node₀ r₀ ix w t hr ht hj =>
    exact run_step h hs hr (fun _ _ => rfl)
      (fun res hres hid => readKeys_step h hd hs hr hres hid ht hj) k node r hr' res hres' hid
  case readExact i j node₀ r₀ w hr ht hj =>
    exact run_step h hs hr (fun _ _ => rfl)
      (fun res hres hid => readExact_step h hd hs hr hres hid ht hj) k node r hr' res hres' hid
  case search i j node₀ r₀ ix w t key keys calls hr ht hj hsearch =>
    exact run_step h hs hr (fun _ _ => rfl)
      (fun res hres hid => search_step h hd hs hr hres hid ht hj hsearch) k node r hr' res hres' hid
  case searched i j node₀ r₀ hr ht =>
    exact run_step h hs hr (fun _ _ => rfl)
      (fun res hres hid => (hs.runs i node₀ r₀ hr res hres hid).searched ht) k node r hr' res hres' hid
  case added i j node₀ r₀ keys hr ht =>
    exact run_step h hs hr (fun _ _ => rfl)
      (fun res hres hid => (hs.runs i node₀ r₀ hr res hres hid).added ht) k node r hr' res hres' hid
  case add i j node₀ r₀ p u calls keys res₀ results hr ht hres₀ ha =>
    refine run_step h hs hr (fun node hne => (DList.get_modify ..).trans (if_neg hne)) (fun res hres hid => ?_) k node r
      hr' res hres' hid
    obtain ⟨-, res₁, hres₁, rfl⟩ := (DList.modify_cases hres).resolve_right fun h => h.1 rfl
    cases hres₀.symm.trans hres₁
    exact add_step h hs hr hres₀ hid ht ha
  case finishTask i j node₀ r₀ sub hr ht hsub =>
    exact run_step h hs hr (fun _ _ => rfl)
      (fun res hres hid => (hs.runs i node₀ r₀ hr res hres hid).finish ht hsub) k node r hr' res hres' hid
  all_goals exact hsame hr' (by rfl) (by rfl) hres' hid

omit [NeZero n] in
/-- what `match_doc` stores is the answer -/
theorem answer_of_run {i : Fin n} {node : ℕ} {r : DocRun} {res : DocumentResults} (hr : s.docRun i = some (node, r))
    (hpc : r.pc = .waiting) (hdone : r.sub.Done) (hres : s.docs.get node = some res) (hid : res.docId = d) {ids : List ℕ}
    (hids : ids.Perm (Core.answers s.heap res.results)) : AnswerOf as d doc ids := by
  have hok := hs.results node res hres hid
  refine ⟨hids.nodup_iff.2 (answers_nodup hok), fun id => ?_⟩
  rw [hids.mem_iff, (hs.runs i node r hr res hres hid).mem_answers h.distinct hok (fun q => h.unique_words) hdone hpc]
  exact h.snap_fits id

theorem answers_step (hm : Move s a s') (ids : List ℕ) (hids : (d, ids) ∈ s'.stored) : AnswerOf as d doc ids := by
  cases hm
  case store i c node r res hr hpc hdone hres ho =>
    rcases List.mem_append.1 (hids : _ ∈ s.stored ++ _) with hold | hnew
    · exact hs.answers ids hold
    · cases List.mem_singleton.1 hnew
      exact answer_of_run h hs hr hpc hdone hres rfl ho
  all_goals exact hs.answers ids hids

omit h hs in
/-- a step after the call -/
theorem step (h : Known as s) (h' : Known (as ++ [a]) s') (hm : Move s a s') (hd : (d, doc) ∈ documents as)
    (hapart : Apart d doc as s a) (hs : Seen d doc as s) : Seen d doc (as ++ [a]) s' := by
  have hsnap : Snap (as ++ [a]) d = Snap as d := snap_snoc (mem_ids hd) h'.valid.toDistinctCalls
  have hanswer : ∀ ids, AnswerOf (as ++ [a]) d doc ids ↔ AnswerOf as d doc ids := fun ids => by
    rw [AnswerOf, AnswerOf, activeAt, activeAt, before_snoc (mem_ids hd)]
  constructor
  case new =>
    intro p hp hnew
    rw [hsnap] at hp
    rcases hm.newQuery hnew with hold | rfl
    · exact hs.new p hp hold
    · exact absurd (h.snap_lt hp) (lt_irrefl _)
  case active =>
    intro hopen p q hq
    rw [hsnap]
    exact (active_step h h' hm hd hs hapart hopen p q hq).1
  case others =>
    intro hopen p q hq
    rw [hsnap]
    exact (active_step h h' hm hd hs hapart hopen p q hq).2
  case inserted =>
    intro hc p q hq hp
    exact inserted_step h hm hs hc p q hq (hsnap ▸ hp)
  case results =>
    intro node res hres hid
    rw [hsnap]
    exact results_step h hm hs node res hres hid
  case runs =>
    intro i node r hr res hres hid
    rw [hsnap]
    exact runs_step h hs hm hd i node r hr res hres hid
  case answers => exact fun ids hids => (hanswer ids).2 (answers_step h hs hm ids hids)

omit h hs in
/-- the call -/
theorem called {str : List UInt8} (h : Known as s) (h' : Known (as ++ [.matchDocument d str]) s')
    (hm : Move s (.matchDocument d str) s') : Seen d (words 32 str) (as ++ [.matchDocument d str]) s' := by
  have hnew : d ∉ (documents as).map Prod.fst := h'.valid.new_document rfl
  have hsnap := snap_called hnew (rfl : (Act.matchDocument d str : Act n).document = some (d, words 32 str)) rfl
  have hnode : ∀ node res, s.docs.get node = some res → res.docId ≠ d := by
    rintro node res hres rfl
    exact hnew (mem_ids (h.document hres))
  have hstored : d ∉ s.stored.map Prod.fst := fun hmem =>
    hnew (h.mem_documents_of_submitted (h.submitted_of_stored hmem))
  cases hm
  case matchDocument hcl =>
    have hactive : ∀ (p : ℕ) (q : Query), s.heap[p]? = some q →
        (q.active = true ↔ Snap (as ++ [.matchDocument d str]) d p) := by
      intro p q hq
      obtain ⟨b, hb, hfor⟩ := (forall₂_getElem h.asked p).1 q hq
      have hending : s.client.endingId ≠ some q.id := by
        rw [hcl]
        exact nofun
      rw [h.registry.active p q hq, or_iff_left hending, hsnap, hfor.id]
      constructor
      · intro hmem
        obtain ⟨b', hb', hid⟩ := List.mem_map.1 hmem
        have heq := List.inj_on_of_nodup_map h.valid.started_nodup ((activeAfter_sublist as).subset hb')
          (List.mem_of_getElem? hb) hid
        exact ⟨b, heq ▸ hb', hb⟩
      · rintro ⟨b', hb', hp⟩
        cases hb.symm.trans hp
        exact List.mem_map_of_mem hb'
    constructor
    case new =>
      intro p _
      dsimp only
      split <;> exact nofun
    case active => exact fun _ p q hq hp => (hactive p q hq).2 hp
    case others => exact fun _ p q hq hq' => .inl ((hactive p q hq).1 hq')
    case inserted =>
      intro hc p q hq hp j hj
      cases hflag : s.queryHasStarted with
      | true =>
        dsimp only at hc
        rw [if_pos hflag] at hc
        exact absurd rfl (hc str)
      | false =>
        intro hpend
        refine h.settled hflag j (insertJobs_node hj) (hpend.imp_left ?_)
        rintro ⟨p', rest, hstart, -⟩
        dsimp only at hstart
        split at hstart <;> cases hstart
    case results => exact fun node res hres hid => absurd hid (hnode node res hres)
    case runs => exact fun _ node _ _ res hres hid => absurd hid (hnode node res hres)
    case answers => exact fun ids hids => absurd (List.mem_map_of_mem hids) hstored

end Seen

omit [NeZero n] in
theorem document_mem {a : Act n} (h : a.document = some (d, doc)) : ∃ str, a = .matchDocument d str ∧ words 32 str = doc := by
  unfold Act.document at h
  split at h
  · cases h
    exact ⟨_, rfl, rfl⟩
  · cases h

/-- **The invariant**, in every state of a run in which the queries that are started stay apart from the document -/
theorem seen (hr : run State.step State.init as = some s) (hv : Valid as) (hd : (d, doc) ∈ documents as)
    (hapart : Meets State.step State.init (Apart d doc) as) : Seen d doc as s := by
  refine run_induction (I := fun as s => Valid as → (d, doc) ∈ documents as → Seen d doc as s) nofun
    (fun bs t a t' hbs hapart ih hs hv hd => ?_) hapart hr hv hd
  have h := known hbs hv.init
  have h' : Known (bs ++ [a]) t' := known (by rw [run_snoc, hbs, Option.bind_some, hs]) hv
  rw [documents_snoc, List.mem_append, Option.mem_toList] at hd
  rcases hd with hold | hnew
  · exact Seen.step h h' (step_move hs) hold hapart (ih hv.init hold)
  · obtain ⟨str, rfl, rfl⟩ := document_mem hnew
    exact Seen.called h h' (step_move hs)

end Seen

end K23Search.Core
