/-
The answer of a document in any run, with queries started at any time.

A `match_doc` reads the indexes while the client goes on, so it may or may not find a query that is started after the
call of `MatchDocument`. What is certain is a lower and an upper bound: the queries that were active at the call are
found, and every query that is found was active at the call or started after it (`InWindow`). `EndQuery` cannot take a
query out of the window: it waits for the jobs.

`Window` is the invariant for one document. Its record of the work left (`Matching`) is kept for the run without the
calls for later queries (`DocRun.only`): those calls neither do nor undo work for the queries of the snapshot.

Result:
- `answer_window`: the two bounds, in every run.
-/
import K23Search.Core.MatchDoc
import K23Search.Core.RunSteps

namespace K23Search.Core

open K23Search.Lib K23Search.Text

/-! ## The window -/

/-- the position is of a query that was started after the call of `MatchDocument(d, …)` -/
def Late {n : ℕ} (as : List (Act n)) (d p : ℕ) : Prop := (started (before as d)).length ≤ p

/-- the queries that were started after it -/
def startedSince {n : ℕ} (as : List (Act n)) (d : ℕ) : List Asked := (started as).drop (started (before as d)).length

/-- the ids are of queries that match, each once; all that were active at the call are there, and no other than those
and the later ones -/
structure Bounded {n : ℕ} (as : List (Act n)) (d : ℕ) (doc : List Word) (ids : List ℕ) : Prop where
  nodup : ids.Nodup
  found : ∀ q ∈ activeAt as d, q.Matches doc → q.id ∈ ids
  from_window : ∀ id ∈ ids, ∃ q, q.id = id ∧ q.Matches doc ∧ (q ∈ activeAt as d ∨ q ∈ startedSince as d)

def InWindow {n : ℕ} (as : List (Act n)) (d p : ℕ) : Prop := Snap as d p ∨ Late as d p

open Classical in
/-- the job, with the calls for the queries of `K` alone -/
noncomputable def Task.only (K : ℕ → Prop) : Task → Task
  | .adding calls keys => .adding (calls.filter fun c => K c.1) keys
  | t => t

noncomputable def DocRun.only (K : ℕ → Prop) (r : DocRun) : DocRun := { r with tasks := fun j => (r.tasks j).only K }

section Only

variable {K : ℕ → Prop} {r : DocRun} {p : ℕ}

@[simp] theorem only_calls (K : ℕ → Prop) (t : Task) (c : ℕ × Word) : c ∈ (t.only K).calls ↔ c ∈ t.calls ∧ K c.1 := by
  cases t <;> simp [Task.only, Task.calls]

@[simp] theorem only_keys (K : ℕ → Prop) (t : Task) : (t.only K).keys = t.keys := by
  cases t <;> rfl

theorem only_due (hK : K p) (t : Task) (key : ℕ) (u : Word) : (t.only K).Due key p u ↔ t.Due key p u := by
  cases t with
  | adding calls keys => simp [Task.only, Task.Due, hK]
  | idle | called | searching | done => rfl

theorem only_done (K : ℕ → Prop) (t : Task) : t.only K = .done ↔ t = .done := by
  cases t <;> simp [Task.only]

theorem only_update (K : ℕ → Prop) (r : DocRun) (j : Fin 3) (t : Task) :
    (fun k => (Function.update r.tasks j t k).only K) = Function.update (r.only K).tasks j (t.only K) := by
  funext k
  by_cases hk : k = j
  · subst hk
    simp
  · simp [hk, DocRun.only]

theorem calls_update {P : ℕ × Word → Prop} {tasks : Fin 3 → Task} {j : Fin 3} {t : Task}
    (h : ∀ j, ∀ c ∈ (tasks j).calls, P c) (ht : ∀ c ∈ t.calls, P c) (k : Fin 3) :
    ∀ c ∈ (Function.update tasks j t k).calls, P c := by
  intro c hc
  by_cases hk : k = j
  · subst hk
    rw [Function.update_self] at hc
    exact ht c hc
  · rw [Function.update_of_ne hk] at hc
    exact h k c hc

/-- a worker goes on with its job -/
theorem only_task {queries : List Query} {doc : List Word} {rt rt' : ResultTable} {j : Fin 3} {t : Task}
    (h : Matching queries K doc rt (r.only K)) (hrec : ∀ p u, Recorded queries rt p u → Recorded queries rt' p u)
    (hcalls : ∀ c ∈ t.calls, K c.1 → MayRecord queries K doc c.1 c.2)
    (hkeys : ∀ key ∈ t.keys, key < 2 ^ 30 ∧ ∃ ix w t, (r.sub.queue j).head? = some (.matchQueries ix w t))
    (hdue : ∀ (p : ℕ) (q : Query) (u w : Word), K p → queries[p]? = some q → u ∈ q.uniqueWords.toList →
      WordMatch q.matchType q.matchDist u w → (r.sub.queue j).head? = some (matchJob q.matchType w) →
      (r.tasks j).Due q.matchDist p u → Recorded queries rt' p u ∨ t.Due q.matchDist p u) :
    Matching queries K doc rt' (DocRun.only K { r with tasks := Function.update r.tasks j t }) := by
  have htask := h.task (j := j) (t := t.only K) hrec (fun c hc => ?_) (fun key hkey => hkeys key (by simpa using hkey))
    fun p q u w hp hq hu hmatch hhead hdue' => ?_
  · rw [DocRun.only]
    simp only [only_update]
    exact htask
  · obtain ⟨hc, hK⟩ := (only_calls K t c).1 hc
    exact hcalls c hc hK
  · rw [only_due hp]
    exact hdue p q u w hp hq hu hmatch hhead ((only_due hp _ _ _).1 hdue')

theorem DocRun.Ok.only (h : r.Ok) (K : ℕ → Prop) : (r.only K).Ok := by
  intro j
  have hj := h j
  change TaskOk (r.sub.running j) (r.sub.queue j) ((r.tasks j).only K)
  cases ht : r.tasks j <;> rw [ht] at hj <;> exact hj

end Only

section Window

variable {n : ℕ} {s : State n} {a : Act n} {as : List (Act n)} {d : ℕ} {doc : List Word}

theorem late_snoc (hd : d ∈ (documents as).map Prod.fst) (a : Act n) : Late (as ++ [a]) d = Late as d := by
  funext p
  rw [Late, Late, before_snoc hd]

theorem inWindow_snoc (hd : d ∈ (documents as).map Prod.fst) (hdist : DistinctCalls (as ++ [a])) :
    InWindow (as ++ [a]) d = InWindow as d := by
  funext p
  rw [InWindow, InWindow, snap_snoc hd hdist, late_snoc hd]

theorem startedSince_snoc (hd : d ∈ (documents as).map Prod.fst) (a : Act n) :
    startedSince as d ⊆ startedSince (as ++ [a]) d := by
  rw [startedSince, startedSince, before_snoc hd, started_snoc, List.drop_append]
  exact List.subset_append_left _ _

/-- a query that is started now is of the window -/
theorem Known.late (h : Known as s) (d : ℕ) : Late as d s.heap.length := by
  rw [Late, h.asked.length_eq]
  exact ((before_sublist as d).filterMap _).length_le

/-- the invariant of one document from its call on -/
structure Window {n : ℕ} (d : ℕ) (doc : List Word) (as : List (Act n)) (s : State n) : Prop where
  new : ∀ p, Snap as d p → s.client.newQuery ≠ some p
  active : d ∉ s.stored.map Prod.fst → ∀ (p : ℕ) (q : Query), s.heap[p]? = some q → Snap as d p → q.active = true
  others : d ∉ s.stored.map Prod.fst → ∀ (p : ℕ) (q : Query), s.heap[p]? = some q → q.active = true → InWindow as d p
  inserted : (∀ str, s.client ≠ .clearing d str) → ∀ (p : ℕ) (q : Query), s.heap[p]? = some q → Snap as d p →
    ∀ j ∈ insertJobs q.matchType p q.uniqueWords.toList, ¬ j.Pending s
  results : ∀ node res, s.docs.get node = some res → res.docId = d →
    ResultsOk s.heap (MayRecord s.heap (InWindow as d) doc) res.results
  calls : ∀ i node r, s.docRun i = some (node, r) → ∀ res, s.docs.get node = some res → res.docId = d →
    ∀ j, ∀ c ∈ (r.tasks j).calls, MayRecord s.heap (InWindow as d) doc c.1 c.2
  runs : ∀ i node r, s.docRun i = some (node, r) → ∀ res, s.docs.get node = some res → res.docId = d →
    Matching s.heap (Snap as d) doc res.results (r.only (Snap as d))
  answers : ∀ ids, (d, ids) ∈ s.stored → Bounded as d doc ids

/-- a call in the window for a query of the snapshot -/
theorem MayRecord.snap {queries : List Query} {K K' : ℕ → Prop} {p : ℕ} {u : Word} (h : MayRecord queries K doc p u)
    (hp : K' p) : MayRecord queries K' doc p u := by
  obtain ⟨q, hq, hu, hw, -⟩ := h
  exact ⟨q, hq, hu, hw, .inl hp⟩

/-- a `match_doc` with a worker in a job has not stored its answer -/
theorem Known.before_of_busy (h : Known as s) {i : Fin n} {node : ℕ} {r : DocRun} (hr : s.docRun i = some (node, r))
    (hpast : (∀ rest, r.pc ≠ .submitting rest) → r.pc ≠ .waiting → r.sub.Done) {j : Fin 3} (hj : r.tasks j ≠ .idle) :
    .matchDoc node ∈ s.jobsBefore .stored i := by
  obtain ⟨hw, hhead⟩ := docRun_some.1 hr
  have hpc : r.Open := by
    by_contra hno
    rw [DocRun.Open, not_or, not_exists] at hno
    exact ((h.records.control.docRun_ok hr).busy hj).2 (hpast hno.1 hno.2 j)
  have hjobs : s.jobsBefore .stored i = s.jobs.queue i := by
    rcases hpc with ⟨rest, hpc⟩ | hpc <;> simp only [State.jobsBefore, hw, remaining, hpc] <;> rfl
  rw [hjobs]
  exact List.mem_of_mem_head? hhead

/-- such a `match_doc` has no answer in `stored`, and the call for its document has returned -/
theorem Known.open_of_busy (h : Known as s) {i : Fin n} {node : ℕ} {r : DocRun} {res : DocumentResults}
    (hr : s.docRun i = some (node, r)) (hres : s.docs.get node = some res)
    (hpast : (∀ rest, r.pc ≠ .submitting rest) → r.pc ≠ .waiting → r.sub.Done) {j : Fin 3} (hj : r.tasks j ≠ .idle) :
    res.docId ∉ s.stored.map Prod.fst ∧ ∀ str, s.client ≠ .clearing res.docId str := by
  have hbefore := h.before_of_busy hr hpast hj
  refine ⟨h.not_stored hbefore hres, fun str hc => ?_⟩
  have hsub : res.docId ∈ s.submitted := by
    rw [← Multiset.mem_coe, ← h.way.conserved.stored]
    exact Multiset.mem_add.2 (.inl (mem_before.2 ⟨i, _, hbefore, docId_of_get hres⟩))
  have hhand : s.inHand = [res.docId] := by
    unfold State.inHand
    rw [hc]
  -- the document would be submitted twice
  have hnodup := h.valid.docs
  rw [h.way.submitted, hhand, List.nodup_append] at hnodup
  exact hnodup.2.2 _ hsub _ (List.mem_singleton_self _) rfl

end Window

/-! ## What a step keeps -/

namespace Window

section Steps

variable {n : ℕ} [NeZero n] {s s' : State n} {a : Act n} {as : List (Act n)} {d : ℕ} {doc : List Word}
  (h : Known as s) (hm : Move s a s') (hd : (d, doc) ∈ documents as) (hs : Window d doc as s)

include h hm hs

/-- the queries of the snapshot stay active, and an active one is of the window, until the answer is stored -/
theorem active_step (hd : (d, doc) ∈ documents as) (hopen : d ∉ s'.stored.map Prod.fst) (p : ℕ) (q' : Query)
    (hq' : s'.heap[p]? = some q') : (Snap as d p → q'.active = true) ∧ (q'.active = true → InWindow as d p) := by
  have hopen : d ∉ s.stored.map Prod.fst := fun hmem => hopen (List.map_subset _ hm.stored_subset hmem)
  rcases hm.heap_cases with heq | ⟨q, heq⟩ | ⟨hdone, hhand⟩
  · rw [heq] at hq'
    exact ⟨hs.active hopen p q' hq', hs.others hopen p q' hq'⟩
  · rw [heq] at hq'
    rcases getElem?_snoc hq' with hold | ⟨rfl, rfl⟩
    · exact ⟨hs.active hopen p q' hold, hs.others hopen p q' hold⟩
    · exact ⟨fun hsnap => absurd (h.snap_lt hsnap) (lt_irrefl _), fun _ => .inr (h.late d)⟩
  · -- `EndQuery` has waited for the answer
    exact absurd (h.all_stored hdone hhand (mem_ids hd)) hopen

/-- from the end of `MatchDocument`'s wait on, the words of the snapshot are inserted -/
theorem inserted_step (hc' : ∀ str, s'.client ≠ .clearing d str) (p : ℕ) (q' : Query) (hq' : s'.heap[p]? = some q')
    (hp : Snap as d p) (j : Job) (hj : j ∈ insertJobs q'.matchType p q'.uniqueWords.toList) : ¬ j.Pending s' := by
  obtain ⟨q, hq, hstarted⟩ := hm.old_query (h.snap_lt hp) hq'
  rw [← Query.started_insertJobs hstarted] at hj
  refine (hm.insertStep h.records.control).not_pending (insertJobs_node hj) (fun t ws hnew => ?_) fun hpend => ?_
  · obtain ⟨u, -, heq⟩ := mem_insertJobs.1 hj
    obtain ⟨u', -, heq'⟩ := mem_insertJobs.1 hnew
    exact absurd (Slot.job_inj.1 (heq.trans heq'.symm)).2.2 (Nat.ne_of_lt (h.snap_lt hp))
  · by_cases hc : ∃ str, s.client = .clearing d str
    · obtain ⟨str, hc⟩ := hc
      have hdone := hm.clearing hc (hc' str)
      rcases hpend with ⟨p', rest, hstart, -⟩ | ⟨i, hi⟩
      · cases hc.symm.trans hstart
      · have hmem := jobsBefore_subset s _ i hi
        rw [hdone i] at hmem
        cases hmem
    · exact hs.inserted (fun str hc' => hc ⟨str, hc'⟩) p q hq hp j hj hpend

omit hm in
omit [NeZero n] in
/-- the next call of `add_query_to_doc_results` is defined; the table stays sound, and keeps what is recorded in it -/
theorem add_defined {i : Fin n} {j : Fin 3} {node : ℕ} {r : DocRun} {res : DocumentResults}
    (hr : s.docRun i = some (node, r)) (hres : s.docs.get node = some res) (hid : res.docId = d) {p : ℕ} {u : Word}
    {calls : List (ℕ × Word)} {keys : List ℕ} (ht : r.tasks j = .adding ((p, u) :: calls) keys) :
    ∃ rt, addQueryToDocResults s.heap res.results p u = some rt ∧
      ResultsOk s.heap (MayRecord s.heap (InWindow as d) doc) rt ∧ Recorded s.heap rt p u ∧
      ∀ p' u', Recorded s.heap res.results p' u' → Recorded s.heap rt p' u' := by
  have hmay := hs.calls i node r hr res hres hid j (p, u) (by rw [ht]; exact List.mem_cons_self)
  obtain ⟨q, hq⟩ : ∃ q, s.heap[p]? = some q := hmay.imp fun _ hmay => hmay.1
  exact add_spec h.distinct (hs.results node res hres hid) (fun _ _ _ hmay hq => hmay.own hq) hq hmay

/-- what is recorded for the document may be recorded -/
theorem results_step (node : ℕ) (res' : DocumentResults) (hres' : s'.docs.get node = some res') (hid : res'.docId = d) :
    ResultsOk s'.heap (MayRecord s'.heap (InWindow as d) doc) res'.results := by
  suffices hold : ResultsOk s.heap (MayRecord s.heap (InWindow as d) doc) res'.results from
    hold.mono hm.grows fun _ _ hmay => hmay.mono hm.grows
  rcases hm.record_cases hres' with ⟨-, capacity, heq⟩ | ⟨res, hres, hid', heq | ⟨i, j, r, p, u, calls, keys, hr, ht, ha⟩⟩
  · rw [heq]
    exact resultsOk_empty capacity
  · rw [heq]
    exact hs.results node res hres (hid' ▸ hid)
  · obtain ⟨rt, hrt, hok, -⟩ := add_defined h hs hr hres (hid' ▸ hid) ht
    cases ha.symm.trans hrt
    exact hok

end Steps

section Run

variable {n : ℕ} {s : State n} {as : List (Act n)} {d : ℕ} {doc : List Word} {i : Fin n} {j : Fin 3} {node : ℕ}
  {r : DocRun} {res : DocumentResults} (h : Known as s) (hd : (d, doc) ∈ documents as) (hs : Window d doc as s)
  (hr : s.docRun i = some (node, r)) (hres : s.docs.get node = some res) (hid : res.docId = d)

include h hs in
/-- the words of the snapshot are in the indexes -/
theorem posts (hc : ∀ str, s.client ≠ .clearing d str) {p : ℕ} {q : Query} (hq : s.heap[p]? = some q) (hp : Snap as d p)
    {u : Word} (hu : u ∈ q.uniqueWords.toList) : s.index.Posts (Slot.ofType q.matchType u) u p :=
  h.index.posts hq hu (hs.inserted hc p q hq hp _ (mem_insertJobs.2 ⟨u, hu, rfl⟩))

include h hs hr hres hid

theorem busy (hj : r.tasks j ≠ .idle) : d ∉ s.stored.map Prod.fst ∧ ∀ str, s.client ≠ .clearing d str :=
  hid ▸ h.open_of_busy hr hres (hs.runs i node r hr res hres hid).past hj

omit h in
theorem task_keys (key : ℕ) (hkey : key ∈ (r.tasks j).keys) :
    key < 2 ^ 30 ∧ ∃ ix w t, (r.sub.queue j).head? = some (.matchQueries ix w t) :=
  (hs.runs i node r hr res hres hid).keys j key (by rwa [DocRun.only, only_keys])

include hd

/-- the thresholds that are searched: all of queries of the snapshot are among them -/
theorem readKeys_step {ix : TreeRef} {w : Word} {t : MatchType} (ht : r.tasks j = .called)
    (hj : (r.sub.queue j).head? = some (.matchQueries ix w t)) :
    Matching s.heap (Snap as d) doc res.results (DocRun.only (Snap as d)
      { r with tasks := Function.update r.tasks j (.searching (searchKeys s.thresholdCounters t)) }) := by
  obtain ⟨hopen, -⟩ := busy h hs hr hres hid (j := j) (by rw [ht]; exact nofun)
  obtain ⟨t', w', hjob, -⟩ := h.head_job hd hr hres hid hj
  obtain ⟨htype, htree⟩ : t' = t ∧ t ≠ .exactMatch := by cases t' <;> cases hjob <;> exact ⟨rfl, nofun⟩
  refine only_task (hs.runs i node r hr res hres hid) (fun _ _ => id) (fun _ hc => nomatch hc) ?_ ?_
  · intro key hkey
    obtain ⟨q, hq, hactive⟩ := (h.counted.searchKeys htree key).1 hkey
    have hle := h.threshold (counted_subset s hq)
    simp only [Query.isActive, Bool.and_eq_true, decide_eq_true_eq] at hactive
    exact ⟨by omega, ix, w, t, hj⟩
  · -- the counter of a query of the snapshot is not 0
    intro p q u w₁ hp hq _ _ hhead _
    have htype₁ : q.matchType = t := (matchJob_inj ((Option.some.inj (hhead.symm.trans hj)).trans hjob.symm)).1.trans htype
    refine .inr ((h.counted.searchKeys htree q.matchDist).2 ⟨q, h.mem_counted hq (hs.new p hp), ?_⟩)
    simp [Query.isActive, hs.active hopen p q hq hp, htype₁]

/-- the calls after a search of the table of exact words -/
theorem readExact_step {w : Word} (ht : r.tasks j = .called) (hj : (r.sub.queue j).head? = some (.matchExact w)) :
    (∀ c ∈ s.index.searchExact s.heap w, MayRecord s.heap (InWindow as d) doc c.1 c.2) ∧
    Matching s.heap (Snap as d) doc res.results (DocRun.only (Snap as d)
      { r with tasks := Function.update r.tasks j (.adding (s.index.searchExact s.heap w) []) }) := by
  obtain ⟨hopen, hclear⟩ := busy h hs hr hres hid (j := j) (by rw [ht]; exact nofun)
  obtain ⟨t', w', hjob, hw, -⟩ := h.head_job hd hr hres hid hj
  obtain ⟨-, rfl⟩ := @matchJob_inj t' .exactMatch w' w hjob
  obtain ⟨hsound, hcomplete⟩ := searchExact_finds h.index w'
  have hmay : ∀ c ∈ s.index.searchExact s.heap w', MayRecord s.heap (InWindow as d) doc c.1 c.2 := by
    intro c hc
    obtain ⟨q, hq, hactive, hu, hmatch⟩ := hsound c hc
    exact ⟨q, hq, hu, ⟨w', hw, hmatch⟩, .inl (hs.others hopen c.1 q hq hactive)⟩
  refine ⟨hmay, ?_⟩
  refine only_task (hs.runs i node r hr res hres hid) (fun _ _ => id) (fun c hc hsnap => (hmay c hc).snap hsnap)
    (fun _ hkey => nomatch hkey) ?_
  intro p q u w₁ hp hq hu hmatch hhead _
  obtain ⟨htype, rfl⟩ := @matchJob_inj _ .exactMatch _ w' (Option.some.inj (hhead.symm.trans hj))
  exact .inr (.inl (hcomplete p u q hq (hs.active hopen p q hq hp) htype hmatch (posts h hs hclear hq hp hu)))

/-- the calls after a search of a tree -/
theorem search_step {ix : TreeRef} {w : Word} {t : MatchType} {key : ℕ} {keys : List ℕ} {calls : List (ℕ × Word)}
    (ht : r.tasks j = .searching (key :: keys)) (hj : (r.sub.queue j).head? = some (.matchQueries ix w t))
    (hsearch : s.index.search s.heap ix key w = some calls) :
    (∀ c ∈ calls, MayRecord s.heap (InWindow as d) doc c.1 c.2) ∧
    Matching s.heap (Snap as d) doc res.results (DocRun.only (Snap as d)
      { r with tasks := Function.update r.tasks j (.adding calls keys) }) := by
  have hmatching := hs.runs i node r hr res hres hid
  obtain ⟨hopen, hclear⟩ := busy h hs hr hres hid (j := j) (by rw [ht]; exact nofun)
  have hkeys : ∀ k ∈ key :: keys, k < 2 ^ 30 := fun k hk =>
    (task_keys hs hr hres hid (j := j) k (by rw [ht]; exact hk)).1
  obtain ⟨t', w', hjob, hw, hlen⟩ := h.head_job hd hr hres hid hj
  obtain ⟨rfl, rfl⟩ : t' = t ∧ w' = w := by cases t' <;> cases hjob <;> exact ⟨rfl, rfl⟩
  obtain ⟨hsound, hcomplete⟩ := search_finds h.index h.wordsFit hjob hlen (hkeys key List.mem_cons_self) hsearch
  have hmay : ∀ c ∈ calls, MayRecord s.heap (InWindow as d) doc c.1 c.2 := by
    intro c hc
    obtain ⟨q, hq, hactive, hu, hmatch⟩ := hsound c hc
    exact ⟨q, hq, hu, ⟨w', hw, hmatch⟩, .inl (hs.others hopen c.1 q hq hactive)⟩
  refine ⟨hmay, ?_⟩
  refine only_task hmatching (fun _ _ => id) (fun c hc hsnap => (hmay c hc).snap hsnap)
    (fun k hk => ⟨hkeys k (List.mem_cons_of_mem _ hk), ix, w', t', hj⟩) ?_
  intro p q u w₁ hp hq hu hmatch hhead hdue
  rw [ht] at hdue
  refine .inr ((List.mem_cons.1 hdue).imp_left fun hkey => ?_)
  obtain ⟨htype, rfl⟩ := matchJob_inj ((Option.some.inj (hhead.symm.trans hj)).trans hjob.symm)
  exact hcomplete p u q hq (hs.active hopen p q hq hp) htype hkey hu hmatch (posts h hs hclear hq hp hu)

omit hd

/-- a word is recorded -/
theorem add_step {p : ℕ} {u : Word} {calls : List (ℕ × Word)} {keys : List ℕ} {results : ResultTable}
    (ht : r.tasks j = .adding ((p, u) :: calls) keys)
    (ha : addQueryToDocResults s.heap res.results p u = some results) :
    Matching s.heap (Snap as d) doc results (DocRun.only (Snap as d)
      { r with tasks := Function.update r.tasks j (.adding calls keys) }) := by
  have hmatching := hs.runs i node r hr res hres hid
  obtain ⟨rt, hrt, -, hnew, hrec⟩ := add_defined h hs hr hres hid ht
  cases ha.symm.trans hrt
  refine only_task hmatching hrec ?_ ?_ ?_
  · intro c hc hsnap
    exact (hs.calls i node r hr res hres hid j c (by rw [ht]; exact List.mem_cons_of_mem _ hc)).snap hsnap
  · intro k hk
    exact task_keys hs hr hres hid k (by rw [ht]; exact hk)
  · intro p' q' u' w _ _ _ _ _ hdue
    rw [ht] at hdue
    rcases hdue with hcall | hkey
    · rcases List.mem_cons.1 hcall with heq | hcall
      · cases heq
        exact .inl hnew
      · exact .inr (.inl hcall)
    · exact .inr (.inr hkey)

include hd

/-- one step of the run -/
theorem run_move {r' : DocRun} {rt' : ResultTable}
    (hmove : RunMove s r res.results r' rt') :
    (∀ j, ∀ c ∈ (r'.tasks j).calls, MayRecord s.heap (InWindow as d) doc c.1 c.2) ∧
      Matching s.heap (Snap as d) doc rt' (r'.only (Snap as d)) := by
  have hmatching := hs.runs i node r hr res hres hid
  have hcalls := hs.calls i node r hr res hres hid
  have hok := h.records.control.docRun_ok hr
  cases hmove with
  | same => exact ⟨hcalls, hmatching⟩
  | submit hpc => exact ⟨hcalls, hmatching.submit (hok.only _) hpc⟩
  | wait hpc => exact ⟨hcalls, hmatching.wait hpc⟩
  | store hpc hdone => exact ⟨hcalls, hmatching.pass hdone (by simp [DocRun.only, hpc]) _⟩
  | move hpc | moved hpc =>
    have hdone := hmatching.past (by simp [DocRun.only, hpc]) (by simp [DocRun.only, hpc])
    exact ⟨hcalls, hmatching.pass hdone (by simp [DocRun.only, hpc]) _⟩
  | startTask hsub =>
    refine ⟨calls_update hcalls (fun _ hc => nomatch hc), ?_⟩
    have hstart := hmatching.start hsub
    rw [DocRun.only]
    simp only [only_update]
    exact hstart
  | readKeys ht hj => exact ⟨calls_update hcalls (fun _ hc => nomatch hc), readKeys_step h hd hs hr hres hid ht hj⟩
  | readExact ht hj =>
    obtain ⟨hmay, hnext⟩ := readExact_step h hd hs hr hres hid ht hj
    exact ⟨calls_update hcalls hmay, hnext⟩
  | search ht hj hsearch =>
    obtain ⟨hmay, hnext⟩ := search_step h hd hs hr hres hid ht hj hsearch
    exact ⟨calls_update hcalls hmay, hnext⟩
  | searched ht =>
    refine ⟨calls_update hcalls (fun _ hc => nomatch hc), ?_⟩
    exact only_task hmatching (fun _ _ => id) (fun _ hc => nomatch hc) (fun _ hkey => nomatch hkey)
      fun _ _ _ _ _ _ _ _ _ hdue => by rw [ht] at hdue; cases hdue
  | @add j p u calls keys _ ht ha =>
    exact ⟨calls_update hcalls fun c hc => hcalls j c (by rw [ht]; exact List.mem_cons_of_mem _ hc), add_step h hs hr hres hid ht ha⟩
  | added ht =>
    refine ⟨calls_update hcalls (fun _ hc => nomatch hc), ?_⟩
    refine only_task hmatching (fun _ _ => id) (fun _ hc => nomatch hc)
      (fun key hkey => task_keys hs hr hres hid key (by rwa [ht])) fun _ _ _ _ _ _ _ _ _ hdue => ?_
    rw [ht] at hdue
    exact .inr (hdue.resolve_left fun hcall => nomatch hcall)
  | finishTask ht hsub =>
    refine ⟨calls_update hcalls (fun _ hc => nomatch hc), ?_⟩
    have hfinish := hmatching.finish ((only_done _ _).2 ht) hsub
    rw [DocRun.only]
    simp only [only_update]
    exact hfinish

end Run

section Run

variable {n : ℕ} [NeZero n] {s s' : State n} {a : Act n} {as : List (Act n)} {d : ℕ} {doc : List Word} {node : ℕ}

/-- every run for the document is kept -/
theorem runs_step (h : Known as s) (hm : Move s a s') (hd : (d, doc) ∈ documents as) (hs : Window d doc as s) {k : Fin n}
    {r' : DocRun} (hr' : s'.docRun k = some (node, r')) {res' : DocumentResults} (hres' : s'.docs.get node = some res')
    (hid : res'.docId = d) :
    (∀ j, ∀ c ∈ (r'.tasks j).calls, MayRecord s'.heap (InWindow as d) doc c.1 c.2) ∧
      Matching s'.heap (Snap as d) doc res'.results (r'.only (Snap as d)) := by
  suffices hold : (∀ j, ∀ c ∈ (r'.tasks j).calls, MayRecord s.heap (InWindow as d) doc c.1 c.2) ∧
      Matching s.heap (Snap as d) doc res'.results (r'.only (Snap as d)) from
    ⟨fun j c hc => (hold.1 j c hc).mono hm.grows, hold.2.mono hm.grows fun p hp => h.snap_some hp⟩
  rcases hm.run_cases h.records hr' hres' with hb | ⟨r, res, hr, hres, hsame, hmove⟩
  · obtain ⟨hw, hhead, hres, rfl⟩ := hb
    refine ⟨fun j c hc => (nomatch hc), ?_⟩
    have hqueue : s.jobsBefore .unlinked k = s.jobs.queue k := by
      simp only [State.jobsBefore, hw]
      rfl
    have hparsed : res'.Parsed := h.records.texts.parsed node res' hres fun hcl =>
      h.records.nodes.client_ne (hqueue ▸ List.mem_of_mem_head? hhead) (hcl ▸ List.mem_singleton_self node) rfl
    exact matching_init fun w hw => (h.mem_words hd hres hid hparsed w).2 hw
  · exact run_move h hd hs hr hres (hsame.trans hid) hmove

omit [NeZero n] in
/-- what `match_doc` stores -/
theorem answer_of_run (h : Known as s) (hs : Window d doc as s) {i : Fin n} {r : DocRun} {res : DocumentResults}
    (hr : s.docRun i = some (node, r)) (hpc : r.pc = .waiting) (hdone : r.sub.Done) (hres : s.docs.get node = some res)
    (hid : res.docId = d) {ids : List ℕ} (hids : ids.Perm (Core.answers s.heap res.results)) :
    Bounded as d doc ids := by
  have hok := hs.results node res hres hid
  have hmatching := hs.runs i node r hr res hres hid
  refine ⟨hids.nodup_iff.2 (answers_nodup hok), fun b hb hmatches => ?_, fun id hmem => ?_⟩
  · -- a query of the snapshot: nothing is due any more
    obtain ⟨p, q, hp, hq, hqid, hfits⟩ := (h.snap_fits b.id).2 ⟨b, hb, rfl, hmatches⟩
    rw [hids.mem_iff, ← hqid]
    refine mem_answers_of_recorded h.distinct hok (fun _ _ _ hmay hq => hmay.own hq) hq
      (h.unique_words (List.mem_of_getElem? hq)) fun u hu => ?_
    obtain ⟨w, hw, hmatch⟩ := hfits u hu
    have hnone := @DocRun.not_due (r.only (Snap as d)) hdone (by rw [DocRun.only, hpc]; exact nofun)
    exact (hmatching.due p q u w hp hq hu hw hmatch).resolve_right (hnone _ _ _ _)
  · obtain ⟨p, q, hq, rfl, hall⟩ := of_mem_answers hok (hids.mem_iff.1 hmem)
    have hmay : ∀ u ∈ q.uniqueWords.toList, (∃ w ∈ doc, WordMatch q.matchType q.matchDist u w) ∧
        (InWindow as d p ∨ ¬ q.Fits doc) := by
      intro u hu
      obtain ⟨q', hq', -, hw, hwindow⟩ := hall u hu
      cases hq.symm.trans hq'
      exact ⟨hw, hwindow⟩
    have hfits : q.Fits doc := fun u hu => (hmay u hu).1
    obtain ⟨u, hu⟩ := List.exists_mem_of_ne_nil _ (h.unique_words (List.mem_of_getElem? hq))
    obtain ⟨b, hb, hfor⟩ := (forall₂_getElem h.asked p).1 q hq
    refine ⟨b, hfor.id.symm, (hfor.fits doc).1 hfits, ?_⟩
    rcases (hmay u hu).2.resolve_right fun hno => hno hfits with ⟨b', hb', hp'⟩ | hlate
    · cases hb.symm.trans hp'
      exact .inl hb'
    · refine .inr (List.mem_of_getElem? (i := p - (started (before as d)).length) ?_)
      rw [startedSince, List.getElem?_drop, Nat.add_sub_cancel' hlate, hb]

/-- a step after the call -/
theorem step (h : Known as s) (h' : Known (as ++ [a]) s') (hm : Move s a s') (hd : (d, doc) ∈ documents as)
    (hs : Window d doc as s) : Window d doc (as ++ [a]) s' := by
  have hsnap : Snap (as ++ [a]) d = Snap as d := snap_snoc (mem_ids hd) h'.valid.toDistinctCalls
  have hwindow : InWindow (as ++ [a]) d = InWindow as d := inWindow_snoc (mem_ids hd) h'.valid.toDistinctCalls
  constructor
  case new =>
    intro p hp hnew
    rw [hsnap] at hp
    rcases hm.newQuery hnew with hold | rfl
    · exact hs.new p hp hold
    · exact absurd (h.snap_lt hp) (lt_irrefl _)
  case active =>
    intro hopen p q hq
    rw [hsnap]
    exact (active_step h hm hs hd hopen p q hq).1
  case others =>
    intro hopen p q hq
    rw [hwindow]
    exact (active_step h hm hs hd hopen p q hq).2
  case inserted =>
    intro hc p q hq hp
    exact inserted_step h hm hs hc p q hq (hsnap ▸ hp)
  case results =>
    intro node res hres hid
    rw [hwindow]
    exact results_step h hm hs node res hres hid
  case calls =>
    intro i node r hr res hres hid
    rw [hwindow]
    exact (runs_step h hm hd hs hr hres hid).1
  case runs =>
    intro i node r hr res hres hid
    rw [hsnap]
    exact (runs_step h hm hd hs hr hres hid).2
  case answers =>
    intro ids hids
    have hbound : Bounded as d doc ids := by
      cases hm
      case store i c node r res hr hpc hdone hres ho =>
        rcases List.mem_append.1 (hids : _ ∈ s.stored ++ _) with hold | hnew
        · exact hs.answers ids hold
        · cases List.mem_singleton.1 hnew
          exact answer_of_run h hs hr hpc hdone hres rfl ho
      all_goals exact hs.answers ids hids
    have hactive : activeAt (as ++ [a]) d = activeAt as d := by rw [activeAt, activeAt, before_snoc (mem_ids hd)]
    refine ⟨hbound.nodup, hactive ▸ hbound.found, fun id hid => ?_⟩
    obtain ⟨q, hq, hmatches, hin⟩ := hbound.from_window id hid
    exact ⟨q, hq, hmatches, hin.imp (hactive ▸ ·) (startedSince_snoc (mem_ids hd) a ·)⟩

/-- the call -/
theorem called {str : List UInt8} (h : Known as s) (h' : Known (as ++ [.matchDocument d str]) s')
    (hm : Move s (.matchDocument d str) s') : Window d (words 32 str) (as ++ [.matchDocument d str]) s' := by
  have hnew : d ∉ (documents as).map Prod.fst := h'.valid.new_document rfl
  have hseen := Seen.called h h' hm
  have hsnap := snap_called hnew (rfl : (Act.matchDocument d str : Act n).document = some (d, words 32 str)) rfl
  have hnode : ∀ node res, s.docs.get node = some res → res.docId ≠ d := by
    rintro node res hres rfl
    exact hnew (mem_ids (h.document hres))
  have hstored : d ∉ s.stored.map Prod.fst := fun hmem =>
    hnew (h.mem_documents_of_submitted (h.submitted_of_stored hmem))
  cases hm
  case matchDocument hcl =>
    refine ⟨hseen.new, hseen.active, fun _ p q hq hactive => .inl ?_, hseen.inserted, ?_, ?_, ?_, ?_⟩
    · obtain ⟨b, hb, hfor⟩ := (forall₂_getElem h.asked p).1 q hq
      have hending : s.client.endingId ≠ some q.id := by
        rw [hcl]
        exact nofun
      have hmem := ((h.registry.active p q hq).1 hactive).resolve_right hending
      rw [hfor.id] at hmem
      obtain ⟨b', hb', hid⟩ := List.mem_map.1 hmem
      have heq := List.inj_on_of_nodup_map h.valid.started_nodup ((activeAfter_sublist as).subset hb')
        (List.mem_of_getElem? hb) hid
      exact (hsnap p).2 ⟨b', hb', heq ▸ hb⟩
    · exact fun node res hres hid => absurd hid (hnode node res hres)
    · exact fun _ node _ _ res hres hid => absurd hid (hnode node res hres)
    · exact fun _ node _ _ res hres hid => absurd hid (hnode node res hres)
    · exact fun ids hids => absurd (List.mem_map_of_mem hids) hstored

end Run

end Window

section Answer

variable {n : ℕ} [NeZero n] {s : State n} {as : List (Act n)} {d : ℕ} {doc : List Word}

/-- **The invariant**, in every state of every run -/
theorem window (hr : run State.step State.init as = some s) (hv : Valid as) (hd : (d, doc) ∈ documents as) :
    Window d doc as s := by
  refine run_induction (G := fun _ _ _ => True) (I := fun as s => Valid as → (d, doc) ∈ documents as → Window d doc as s)
    nofun (fun bs t a t' hbs _ ih hs hv hd => ?_) (meets_true _ _ _) hr hv hd
  have h := known hbs hv.init
  have h' : Known (bs ++ [a]) t' := known (by rw [run_snoc, hbs, Option.bind_some, hs]) hv
  rw [documents_snoc, List.mem_append, Option.mem_toList] at hd
  rcases hd with hold | hnew
  · exact Window.step h h' (step_move hs) hold (ih hv.init hold)
  · obtain ⟨str, rfl, rfl⟩ := document_mem hnew
    exact Window.called h h' (step_move hs)

end Answer

end K23Search.Core
