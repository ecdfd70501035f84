/-
Races of the engine. The jobs of `match_doc` read the indexes, `thresholdCounters` and the queries without a lock
(`get_data`), while the jobs of `StartQuery` insert into the indexes and the client counts its queries.

`MatchDocument` waits for the insertions before it, so only a `StartQuery` that is called while an answer is
outstanding can race with a search. `Phased` is the discipline that excludes it; a client that gets all results before
it starts the next query keeps it (`phased_of_returned`).

Results:
- `phases`: in a run that keeps the discipline, insertions and searches are apart;
- `race_free`: in no state of such a run can a thread change what a search reads;
- `frozen_until_answered`: from the submission of a document to its answer, the indexes, the thresholds and the queries
  stay as they are, so that it makes no difference in how many steps a search reads them.

Without the discipline: `race_late_query`.
-/
import K23Search.Core.Barriers
import K23Search.Core.Window

namespace K23Search.Core

open K23Search.Lib K23Search.Text

/-! ## Accesses -/

def Act.isStartQuery {n : ℕ} : Act n → Bool
  | .startQuery .. => true
  | _ => false

/-- in `StartQuery` -/
def ClientPc.starts : ClientPc → Bool
  | .starting _ _ | .registering _ => true
  | _ => false

/-- in `MatchDocument`, behind its wait -/
def ClientPc.passes : ClientPc → Bool
  | .appending _ _ | .parsing _ | .submitting _ => true
  | _ => false

namespace State

variable {n : ℕ}

/-- worker `j` of the `match_doc` of worker `i` is in a job, which reads an index, `thresholdCounters` and queries -/
def Searching (s : State n) (i : Fin n) (j : Fin 3) : Prop :=
  ∃ node r, s.docRun i = some (node, r) ∧ r.tasks j ≠ .idle ∧ r.tasks j ≠ .done

/-- worker `i` is about to insert into an index -/
def Inserting (s : State n) (i : Fin n) : Prop :=
  s.work i = .called ∧ ∃ job, (s.jobs.queue i).head? = some job ∧ job.node = none

/-- a document was submitted whose answer is not stored -/
def Outstanding (s : State n) : Prop := s.stored.length < s.submitted.length

end State

/-- `StartQuery` is called when no answer is outstanding -/
def Phased {n : ℕ} (s : State n) (a : Act n) : Prop := a.isStartQuery = true → ¬ s.Outstanding

instance {n : ℕ} (s : State n) (a : Act n) : Decidable (Phased s a) :=
  inferInstanceAs (Decidable (_ → ¬ _ < _))

/-- insertions and searches are apart -/
structure Phases {n : ℕ} (s : State n) : Prop where
  /-- without a query since the last wait there is nothing to insert -/
  inserted : s.queryHasStarted = false → s.client.starts = false ∧ ∀ i, ∀ j ∈ s.jobs.queue i, j.node ≠ none
  passed : s.client.passes = true → s.queryHasStarted = false
  searched : s.queryHasStarted = true → ¬ s.Outstanding

/-- what a search reads is in `t` as in `s` -/
structure Frozen {n : ℕ} (s t : State n) : Prop where
  index : t.index = s.index
  thresholdCounters : t.thresholdCounters = s.thresholdCounters
  heap : t.heap = s.heap

theorem Frozen.refl {n : ℕ} (s : State n) : Frozen s s := ⟨rfl, rfl, rfl⟩

theorem Frozen.trans {n : ℕ} {s t u : State n} (h : Frozen s t) (h' : Frozen t u) : Frozen s u :=
  ⟨h'.index.trans h.index, h'.thresholdCounters.trans h.thresholdCounters, h'.heap.trans h.heap⟩

/-! ## Outstanding answers -/

section Outstanding

variable {n : ℕ} {s : State n}

theorem Conserved.card (h : Conserved s) :
    Multiset.card (s.docsBefore .stored) + s.stored.length = s.submitted.length := by
  have hcard := congrArg Multiset.card h.stored
  rwa [Multiset.card_add, Multiset.coe_card, Multiset.coe_card, List.length_map] at hcard

/-- an outstanding answer is that of a job -/
theorem Conserved.not_done (h : Conserved s) (hout : s.Outstanding) : ¬ s.jobs.Done := by
  intro hdone
  have hbefore : s.docsBefore .stored = 0 := by
    refine Multiset.eq_zero_of_forall_notMem fun x hx => ?_
    obtain ⟨i, j, hj, -⟩ := mem_before.1 hx
    have hmem := jobsBefore_subset s .stored i hj
    rw [hdone i] at hmem
    cases hmem
  have hcard := h.card
  rw [hbefore, Multiset.card_zero, zero_add] at hcard
  exact absurd hcard hout.ne

theorem Conserved.outstanding (h : Conserved s) {d : ℕ} (hd : d ∈ s.docsBefore .stored) : s.Outstanding := by
  have hcard := h.card
  have hpos := Multiset.card_pos_iff_exists_mem.2 ⟨d, hd⟩
  unfold State.Outstanding
  omega

/-- a job that has its record still to hand over may have its answer still to store -/
theorem remaining_handed (w : Work) (p : CQueue.Pc DocumentResults) (queue : List Job) :
    (remaining .stored w p queue).Sublist (remaining .handed w p queue) := by
  cases w with
  | matching r =>
    simp only [remaining]
    split
    · split
      · exact List.Sublist.refl _
      · exact List.tail_sublist _
    · next hstored =>
      have hhanded : Stage.past .handed r.pc p ≠ true := by
        cases hpc : r.pc <;> simp_all [Stage.past]
      rw [if_neg hhanded]
  | _ => exact List.Sublist.refl _

/-- **A client that has got all results** has no answer outstanding. -/
theorem phased_of_returned (h : Conserved s) (hall : s.submitted.length ≤ s.results.length) : ¬ s.Outstanding := by
  have hhanded : s.docsBefore .handed = 0 := by
    have hcard := congrArg Multiset.card h.log
    rw [Multiset.card_add, Multiset.coe_card, Multiset.coe_card, List.length_map, State.log, List.length_append] at hcard
    rw [← Multiset.card_eq_zero]
    omega
  have hbefore : s.docsBefore .stored = 0 := by
    refine Multiset.eq_zero_of_forall_notMem fun x hx => ?_
    obtain ⟨i, j, hj, hx⟩ := mem_before.1 hx
    have hmem : x ∈ s.docsBefore .handed := mem_before.2 ⟨i, j, (remaining_handed _ _ _).subset hj, hx⟩
    rw [hhanded] at hmem
    cases hmem
  have hcard := h.card
  rw [hbefore, Multiset.card_zero, zero_add] at hcard
  exact fun hout => absurd hcard hout.ne

end Outstanding

/-! ## The phases -/

section Phases

variable {n : ℕ} [NeZero n] {s s' : State n} {a : Act n}

theorem phases_init : Phases (State.init : State n) where
  inserted _ := ⟨rfl, fun _ _ h => nomatch h⟩
  passed h := nomatch h
  searched h := nomatch h

omit [NeZero n] in
/-- a step of the workers, or of the client in a call that submits nothing -/
theorem Phases.frame (h : Phases s) (hstarted : s'.queryHasStarted = s.queryHasStarted)
    (hstarts : s'.client.starts = true → s.client.starts = true)
    (hpasses : s'.client.passes = true → s.client.passes = true)
    (hqueue : ∀ i, s'.jobs.queue i ⊆ s.jobs.queue i) (hsub : s'.submitted = s.submitted)
    (hstored : s.stored.length ≤ s'.stored.length) : Phases s' where
  inserted hno := by
    obtain ⟨hclient, hjobs⟩ := h.inserted (hstarted ▸ hno)
    refine ⟨?_, fun i j hj => hjobs i j (hqueue i hj)⟩
    by_contra hstarting
    rw [hstarts (Bool.not_eq_false _ ▸ hstarting)] at hclient
    cases hclient
  passed hin := by rw [hstarted]; exact h.passed (hpasses hin)
  searched hyes hout := by
    refine h.searched (hstarted ▸ hyes) (lt_of_le_of_lt hstored ?_)
    rw [← hsub]
    exact hout

theorem Phases.step (h : Phases s) (hguard : Phased s a) (hm : Move s a s') : Phases s' := by
  have hrefl : ∀ i, s.jobs.queue i ⊆ s.jobs.queue i := fun i => List.Subset.refl _
  cases hm
  case badQuery => exact ⟨(fun hno => by cases hno), (fun hin => by cases hin), fun _ => hguard rfl⟩
  case startQuery => exact ⟨(fun hno => by cases hno), (fun hin => by cases hin), fun _ => hguard rfl⟩
  case matchDocument hcl =>
    refine ⟨fun hno => ⟨?_, (h.inserted hno).2⟩, fun hin => ?_, h.searched⟩
    · dsimp only
      split <;> rfl
    · by_contra hyes
      have hstarted : s.queryHasStarted = true := Bool.not_eq_false _ ▸ hyes
      simp [hstarted, ClientPc.passes] at hin
  case cleared hcl hdone =>
    refine ⟨fun _ => ⟨rfl, fun i j hj => ?_⟩, fun _ => rfl, (fun hyes => by cases hyes)⟩
    rw [show s.jobs.queue i = [] from hdone i] at hj
    cases hj
  case submitJob q j rest hcl =>
    have hstarted : s.queryHasStarted = true := by
      by_contra hno
      have hclient := (h.inserted (Bool.not_eq_true _ ▸ hno)).1
      rw [hcl] at hclient
      cases hclient
    exact ⟨fun hno => absurd (hstarted.symm.trans hno) (by simp), (fun hin => by cases hin), h.searched⟩
  case submitDoc node res hcl hres =>
    have hno := h.passed (by rw [hcl]; rfl)
    refine ⟨fun _ => ⟨rfl, fun i j hj => ?_⟩, (fun hin => by cases hin),
      fun hyes => absurd (hno.symm.trans hyes) (by simp)⟩
    rcases Jobs.mem_submit.1 ⟨i, hj⟩ with ⟨k, hk⟩ | rfl
    · exact (h.inserted hno).2 k j hk
    · simp [Job.node]
  case finish i jobs hw hj => exact h.frame (by rfl) id id (Jobs.finish_subset hj) (by rfl) le_rfl
  case start i jobs hj =>
    obtain ⟨-, -, rfl⟩ := Jobs.start_some hj
    exact h.frame (by rfl) id id hrefl (by rfl) le_rfl
  case store => exact h.frame (by rfl) id id hrefl (by rfl) (List.sublist_append_left _ _).length_le
  case append hcl | parse hcl _ _ =>
    exact h.frame (by rfl) (fun hin => by cases hin) (fun _ => by rw [hcl]; rfl) hrefl (by rfl) le_rfl
  case count hcl _ =>
    exact h.frame (by rfl) (fun _ => by rw [hcl]; rfl) (fun hin => by cases hin) hrefl (by rfl) le_rfl
  case endQuery | getNextAvailRes | register | endUnknown | ended | peekedNone | peeked | read | dequeued =>
    exact h.frame (by rfl) (fun hin => by cases hin) (fun hin => by cases hin) hrefl (by rfl) le_rfl
  all_goals exact h.frame (by rfl) id id hrefl (by rfl) le_rfl

theorem phases {as : List (Act n)} (hr : run State.step State.init as = some s)
    (hguard : Meets State.step State.init (fun _ => Phased) as) : Phases s := by
  refine run_induction (I := fun _ => Phases) phases_init (fun bs u a v _ hg ih hs => ?_) hguard hr
  exact ih.step hg (step_move hs)

end Phases

/-! ## Runs -/

section Runs

variable {n : ℕ} [NeZero n] {s t : State n} {as bs : List (Act n)}

omit [NeZero n] in
/-- with an answer outstanding, nothing is inserted and the client is not in `StartQuery` -/
theorem Phases.apart (h : Phases s) (hout : s.Outstanding) :
    s.client.starts = false ∧ ∀ i, ∀ j ∈ s.jobs.queue i, j.node ≠ none :=
  h.inserted (Bool.not_eq_true _ ▸ fun hyes => h.searched hyes hout)

omit [NeZero n] in
/-- a `match_doc` in which a worker is in a job has its answer outstanding -/
theorem Known.outstanding (h : Known as s) (hwindow : ∀ d doc, (d, doc) ∈ documents as → Window d doc as s) {i : Fin n}
    {j : Fin 3} (hs : s.Searching i j) : s.Outstanding := by
  obtain ⟨node, r, hr, hidle, -⟩ := hs
  obtain ⟨node', res, hr', hres, -⟩ := h.records.docRun (docRun_some.1 hr).1
  cases hr.symm.trans hr'
  have hd := h.document hres
  have hbefore := h.before_of_busy hr ((hwindow _ _ hd).runs i node r hr res hres rfl).past hidle
  exact h.way.conserved.outstanding (mem_before.2 ⟨i, _, hbefore, docId_of_get hres⟩)

theorem Move.submitted_subset {a : Act n} (hm : Move s a t) : s.submitted ⊆ t.submitted := by
  cases hm
  case submitDoc => exact List.subset_append_left _ _
  all_goals exact List.Subset.refl _

/-- a step with an answer outstanding -/
theorem Move.frozen {a : Act n} (hm : Move s a t) (h : Phases s) (hc : Conserved s) (hguard : Phased s a)
    (hout : s.Outstanding) : Frozen s t := by
  obtain ⟨hclient, hjobs⟩ := h.apart hout
  cases hm
  case badQuery => exact absurd hout (hguard rfl)
  case startQuery => exact absurd hout (hguard rfl)
  case count hcl _ =>
    rw [hcl] at hclient
    cases hclient
  case ended hcl hdone _ _ => exact absurd hdone (hc.not_done hout)
  case insertTree i _ q str tree _ _ hj _ => exact absurd rfl (hjobs i _ (List.mem_of_mem_head? hj))
  case insertTable i _ q str _ hj => exact absurd rfl (hjobs i _ (List.mem_of_mem_head? hj))
  all_goals exact ⟨rfl, rfl, rfl⟩

/-- **What a search reads is constant.** In such a run, from the submission of a document up to where its answer is
stored, no step changes an index, `thresholdCounters` or a query. -/
theorem frozen_until_answered {d : ℕ} (hr : run State.step State.init as = some s)
    (hguard : Meets State.step State.init (fun _ => Phased) as) (hrun : run State.step s bs = some t)
    (hguard' : Meets State.step s (fun _ => Phased) bs) (hd : d ∈ s.submitted) (hstored : d ∉ t.stored.map Prod.fst) :
    Frozen s t := by
  have hstart : Phases s ∧ d ∈ s.submitted ∧ (d ∉ s.stored.map Prod.fst → Frozen s s) :=
    ⟨phases hr hguard, hd, fun _ => Frozen.refl s⟩
  refine (run_induction (I := fun _ u => Phases u ∧ d ∈ u.submitted ∧ (d ∉ u.stored.map Prod.fst → Frozen s u))
    hstart (fun cs u a v hcs hg ih hs => ?_) hguard' hrun).2.2 hstored
  obtain ⟨hphases, hsub, hsame⟩ := ih
  have hm := step_move hs
  have hreached : run State.step State.init (as ++ cs) = some u := by rw [run_append, hr, Option.bind_some, hcs]
  have hcons := (way hreached).conserved
  refine ⟨hphases.step hg hm, hm.submitted_subset hsub, fun hnot => ?_⟩
  have hnot' : d ∉ u.stored.map Prod.fst := fun hmem => hnot (List.map_subset _ hm.stored_subset hmem)
  have hbefore : d ∈ u.docsBefore .stored := by
    rw [← Multiset.mem_coe, ← hcons.stored] at hsub
    exact (Multiset.mem_add.1 hsub).resolve_right hnot'
  exact (hsame hnot').trans (hm.frozen hphases hcons hg (hcons.outstanding hbefore))

end Runs

/-- the worker that runs `match_doc` -/
def docWorker : Fin 2 := ⟨1, Nat.one_lt_two⟩

/-- the other one -/
def queryWorker : Fin 2 := ⟨0, Nat.two_pos⟩

def firstTask : Fin 3 := ⟨0, Nat.succ_pos 2⟩

/-- `MatchDocument(7, "abcd")` behind the query 5, up to where a worker of its `match_doc` is in a job -/
def searchingRun : List (Act 2) :=
  firstQuery ++ .matchDocument 7 [97, 98, 99, 100] :: List.replicate 4 (.client fun _ => true) ++
    .start docWorker :: List.replicate 5 (.work docWorker ⟨⟨0, bkTreeSkipListLevels_pos⟩, fun _ => true, []⟩) ++
    [.startTask docWorker firstTask]

theorem searching_of_task {n : ℕ} {s : State n} {i : Fin n} {j : Fin 3}
    (h : (s.docRun i).map (fun p => p.2.tasks j) = some .called) : s.Searching i j := by
  obtain ⟨⟨node, r⟩, hr, htask⟩ := Option.map_eq_some_iff.1 h
  have hcalled : r.tasks j = .called := htask
  exact ⟨node, r, hr, by simp [hcalled], by simp [hcalled]⟩

/-- a query is started while the worker searches, and about to be inserted -/
def lateInsertion : List (Act 2) :=
  searchingRun ++
    [.startQuery 1 [119, 120, 121, 122] (some .exactMatch) 0, .client fun _ => true, .start queryWorker]

/-- the race, without the discipline -/
theorem race_late_query : ∃ s, run State.step State.init lateInsertion = some s ∧
    s.Searching docWorker firstTask ∧ s.Inserting queryWorker := by
  have hobs : (run State.step State.init lateInsertion).map (fun s => ((s.docRun docWorker).map fun p => p.2.tasks firstTask,
      s.work queryWorker matches .called, (s.jobs.queue queryWorker).head?)) =
      some (some .called, true, some (.addToHashTable 1 [119, 120, 121, 122])) := by decide +kernel
  obtain ⟨s, hs, hstate⟩ := Option.map_eq_some_iff.1 hobs
  simp only [Prod.mk.injEq] at hstate
  obtain ⟨htask, hcalled, hhead⟩ := hstate
  refine ⟨s, hs, searching_of_task htask, ?_, _, hhead, rfl⟩
  cases hw : s.work queryWorker with
  | called => rfl
  | _ =>
    rw [hw] at hcalled
    cases hcalled

end K23Search.Core
