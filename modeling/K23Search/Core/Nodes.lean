/-
The nodes of `docs`: from `MatchDocument`, which appends one, to the job that holds a pointer to it, until `match_doc`
removes it.

Results:
- `jobsBefore_*`, `before_*`: the jobs that are not past a stage of `match_doc`, and what the steps do to them;
- `Move.nodes`: the nodes of `docs` are those of the jobs and that of the client, each once.
-/
import K23Search.Core.Control
import Mathlib.Algebra.BigOperators.Group.Finset.Basic
import Mathlib.Algebra.Order.Group.Multiset

namespace K23Search.Core

open K23Search.Lib K23Search.Text
open CQueue (Pc Call Ret)

/-! ## Model -/

/-- how far `match_doc` is with its record -/
inductive Stage where
  | stored
  /-- in `finished_results` -/
  | handed
  | unlinked
deriving DecidableEq, Repr

/-- a `match_doc` at `pc`, with its thread at `p` in the queue's call, is past this stage -/
def Stage.past : Stage → DocPc → Pc DocumentResults → Bool
  | .stored, .moving, _ => true
  | .stored, .enqueuing, _ => true
  | .stored, .unlinking, _ => true
  | .handed, .enqueuing, .lock _ => false
  | .handed, .enqueuing, .locked _ => false
  | .handed, .enqueuing, _ => true
  | .handed, .unlinking, _ => true
  | _, _, _ => false

/-- the jobs of a worker that are not past the stage -/
def remaining (stage : Stage) (w : Work) (p : Pc DocumentResults) (queue : List Job) : List Job :=
  match w with
  | .done => queue.tail
  | .matching r => if stage.past r.pc p then queue.tail else queue
  | _ => queue

def Job.node : Job → Option ℕ
  | .matchDoc node => some node
  | _ => none

def docIdAt (docs : DList DocumentResults) (node : ℕ) : Option ℕ := (docs.get node).map DocumentResults.docId

def Job.docId (docs : DList DocumentResults) (job : Job) : Option ℕ := job.node.bind (docIdAt docs)

/-- the node that the client holds -/
def ClientPc.node : ClientPc → List ℕ
  | .parsing node => [node]
  | .submitting node => [node]
  | _ => []

namespace State

variable {n : ℕ} (s : State n)

/-- the jobs of worker `i` that are not past the stage -/
def jobsBefore (stage : Stage) (i : Fin n) : List Job :=
  remaining stage (s.work i) (s.finishedResults.pc (some i)) (s.jobs.queue i)

/-- what `g` gives for the jobs that are not past the stage -/
def before (stage : Stage) (g : Job → Option ℕ) : Multiset ℕ := ∑ i, ((s.jobsBefore stage i).filterMap g : Multiset ℕ)

end State

/-! ## The jobs before a stage -/

section Jobs

variable {n : ℕ} {s s' : State n} {stage : Stage} {g g' : Job → Option ℕ} {i : Fin n}

theorem remaining_append {running : Bool} {queue : List Job} {w : Work} (h : WorkOk running queue w)
    (p : Pc DocumentResults) (j : Job) : remaining stage w p (queue ++ [j]) = remaining stage w p queue ++ [j] := by
  cases w with
  | idle | called => rfl
  | done => exact List.tail_append_of_ne_nil h.2
  | matching r =>
    obtain ⟨-, -, node, rest, rfl⟩ := h
    simp only [remaining]
    split <;> rfl

theorem remaining_unlinked (w : Work) (p p' : Pc DocumentResults) (queue : List Job) :
    remaining .unlinked w p queue = remaining .unlinked w p' queue := by
  cases w <;> simp [remaining, Stage.past]

theorem jobsBefore_subset (s : State n) (stage : Stage) (i : Fin n) : s.jobsBefore stage i ⊆ s.jobs.queue i := by
  unfold State.jobsBefore remaining
  split
  · exact List.tail_subset _
  · split
    · exact List.tail_subset _
    · exact List.Subset.refl _
  · exact List.Subset.refl _

/-- the workers have the same jobs before the stage -/
theorem before_same (h : ∀ k, s'.jobsBefore stage k = s.jobsBefore stage k)
    (hg : ∀ k, ∀ j ∈ s.jobsBefore stage k, g' j = g j) : s'.before stage g' = s.before stage g := by
  refine Finset.sum_congr rfl fun k _ => congrArg _ ?_
  rw [h k]
  exact List.filterMap_congr (hg k)

theorem before_congr (hjobs : s'.jobs = s.jobs) (hwork : s'.work = s.work)
    (hfin : s'.finishedResults = s.finishedResults) : s'.before stage g = s.before stage g := by
  unfold State.before State.jobsBefore
  rw [hjobs, hwork, hfin]

/-- one worker has a job more -/
theorem before_add {j : Job} (hi : ((s'.jobsBefore stage i).filterMap g' : Multiset ℕ) =
      (s.jobsBefore stage i).filterMap g + (g' j).toList)
    (hne : ∀ k, k ≠ i → (s'.jobsBefore stage k).filterMap g' = (s.jobsBefore stage k).filterMap g) :
    s'.before stage g' = s.before stage g + ((g' j).toList : Multiset ℕ) := by
  have hrest : ∑ k ∈ Finset.univ.erase i, ((s'.jobsBefore stage k).filterMap g' : Multiset ℕ) =
      ∑ k ∈ Finset.univ.erase i, ((s.jobsBefore stage k).filterMap g : Multiset ℕ) :=
    Finset.sum_congr rfl fun k hk => congrArg _ (hne k (Finset.ne_of_mem_erase hk))
  unfold State.before
  rw [← Finset.add_sum_erase _ _ (Finset.mem_univ i), hi, hrest,
    ← Finset.add_sum_erase _ (fun k => ((s.jobsBefore stage k).filterMap g : Multiset ℕ)) (Finset.mem_univ i)]
  exact add_right_comm ..

/-- a submitted job is before every stage -/
theorem jobsBefore_submit [NeZero n] (hc : Control s.jobs s.work) (j : Job) (hjobs : s'.jobs = s.jobs.submit j)
    (hwork : s'.work = s.work) (hpc : ∀ k : Fin n, s'.finishedResults.pc (some k) = s.finishedResults.pc (some k))
    (k : Fin n) : (k ≠ s.jobs.current ∧ s'.jobsBefore stage k = s.jobsBefore stage k) ∨
      (k = s.jobs.current ∧ s'.jobsBefore stage k = s.jobsBefore stage k ++ [j]) := by
  unfold State.jobsBefore
  rw [hjobs, hwork, hpc]
  rcases Jobs.submit_queue s.jobs j k with ⟨hk, heq⟩ | ⟨hk, heq⟩
  · exact .inl ⟨hk, by rw [heq]⟩
  · exact .inr ⟨hk, by rw [heq, remaining_append (hc k)]⟩

/-- a job is submitted -/
theorem before_submit [NeZero n] (hc : Control s.jobs s.work) (j : Job) (hjobs : s'.jobs = s.jobs.submit j)
    (hwork : s'.work = s.work) (hpc : ∀ k : Fin n, s'.finishedResults.pc (some k) = s.finishedResults.pc (some k))
    (hg : ∀ k, ∀ j' ∈ s.jobsBefore stage k, g' j' = g j') :
    s'.before stage g' = s.before stage g + ((g' j).toList : Multiset ℕ) := by
  have hqueue := @jobsBefore_submit n s s' stage _ hc j hjobs hwork hpc
  refine before_add (i := s.jobs.current) ?_ fun k hk => ?_
  · have hcur := (hqueue s.jobs.current).resolve_left fun h => h.1 rfl
    have hsingle : [j].filterMap g' = (g' j).toList := by cases hj : g' j <;> simp [hj]
    rw [hcur.2, List.filterMap_append, List.filterMap_congr (hg _), hsingle, Multiset.coe_add]
  · rw [((hqueue k).resolve_right fun h => hk h.1).2]
    exact List.filterMap_congr (hg k)

/-- a job of worker `i` passes the stage -/
theorem before_pass {j : Job} (hi : s.jobsBefore stage i = j :: s'.jobsBefore stage i)
    (hne : ∀ k, k ≠ i → s'.jobsBefore stage k = s.jobsBefore stage k)
    (hg : ∀ k, ∀ j' ∈ s'.jobsBefore stage k, g' j' = g j') :
    s.before stage g = s'.before stage g' + ((g j).toList : Multiset ℕ) := by
  refine before_add (i := i) ?_ fun k hk => ?_
  · rw [hi, List.filterMap_congr (hg i)]
    cases hj : g j with
    | none => simp [hj]
    | some d =>
      simp only [List.filterMap_cons, hj, Option.toList_some]
      rw [add_comm]
      rfl
  · rw [← hne k hk]
    exact (List.filterMap_congr (hg k)).symm

/-- worker `i` goes on in its job -/
theorem jobsBefore_setWork {w : Work} (hw : remaining stage w (s.finishedResults.pc (some i)) (s.jobs.queue i) =
    s.jobsBefore stage i) (k : Fin n) : (s.setWork i w).jobsBefore stage k = s.jobsBefore stage k := by
  by_cases hk : k = i
  · subst hk
    simp only [State.jobsBefore, State.setWork, Function.update_self]
    exact hw
  · simp only [State.jobsBefore, State.setWork, Function.update_of_ne hk]

/-- a running `match_doc` goes on to a point on the same side of the stage -/
theorem jobsBefore_run {r r' : DocRun} (hw : s.work i = .matching r)
    (hpast : stage.past r'.pc (s.finishedResults.pc (some i)) = stage.past r.pc (s.finishedResults.pc (some i)))
    (k : Fin n) : (s.setWork i (.matching r')).jobsBefore stage k = s.jobsBefore stage k := by
  refine jobsBefore_setWork ?_ k
  simp only [State.jobsBefore, hw, remaining, hpast]

/-- the same in its call of `finished_results` -/
theorem jobsBefore_queue {q : CQueue (Option (Fin n)) DocumentResults} {w : Work}
    (hw : remaining stage w (q.pc (some i)) (s.jobs.queue i) = s.jobsBefore stage i)
    (hother : ∀ k, k ≠ i → q.pc (some k) = s.finishedResults.pc (some k)) (k : Fin n) :
    ({ s with finishedResults := q }.setWork i w).jobsBefore stage k = s.jobsBefore stage k := by
  by_cases hk : k = i
  · subst hk
    simp only [State.jobsBefore, State.setWork, Function.update_self]
    exact hw
  · simp only [State.jobsBefore, State.setWork, Function.update_of_ne hk]
    rw [hother k hk]

/-- in its call, worker `i` passes the stage -/
theorem jobsBefore_passed {q : CQueue (Option (Fin n)) DocumentResults} {w : Work} {j : Job}
    (hj : (s.jobs.queue i).head? = some j) (hqueue : s.jobsBefore stage i = s.jobs.queue i)
    (hother : ∀ k, k ≠ i → q.pc (some k) = s.finishedResults.pc (some k))
    (hw : remaining stage w (q.pc (some i)) (s.jobs.queue i) = (s.jobs.queue i).tail) :
    s.jobsBefore stage i = j :: ({ s with finishedResults := q }.setWork i w).jobsBefore stage i ∧
      ∀ k, k ≠ i → ({ s with finishedResults := q }.setWork i w).jobsBefore stage k = s.jobsBefore stage k := by
  obtain ⟨rest, hrest⟩ := List.head?_eq_some_iff.1 hj
  constructor
  · rw [hqueue]
    simp only [State.jobsBefore, State.setWork, Function.update_self]
    rw [hw, hrest, List.tail_cons]
  · intro k hk
    simp only [State.jobsBefore, State.setWork, Function.update_of_ne hk]
    rw [hother k hk]

/-- a step of the call that does not look at the list passes no stage -/
theorem past_next {p p' : Pc DocumentResults} (h : p.next = some p') :
    stage.past .enqueuing p' = stage.past .enqueuing p := by
  cases p with
  | unlock sig r =>
    cases h
    cases stage <;> cases sig <;> rfl
  | lock k | signalLocked r | signal r =>
    cases h
    cases stage <;> rfl
  | _ => cases h

theorem goto_worker (c : CQueue (Option (Fin n)) DocumentResults) (p : Pc DocumentResults) {k : Fin n} (hk : k ≠ i) :
    (c.goto (some i) p).pc (some k) = c.pc (some k) := c.goto_pc_ne (fun he => hk (Option.some.inj he)) p

theorem goto_client (c : CQueue (Option (Fin n)) DocumentResults) (p : Pc DocumentResults) (k : Fin n) :
    (c.goto none p).pc (some k) = c.pc (some k) := c.goto_pc_ne (Option.some_ne_none k) p

/-- a call of the client -/
theorem jobsBefore_client (hjobs : s'.jobs = s.jobs) (hwork : s'.work = s.work)
    (hpc : ∀ k : Fin n, s'.finishedResults.pc (some k) = s.finishedResults.pc (some k)) (k : Fin n) :
    s'.jobsBefore stage k = s.jobsBefore stage k := by
  unfold State.jobsBefore
  rw [hjobs, hwork, hpc]

/-- worker `i` starts the job at the head of its queue -/
theorem jobsBefore_start {jobs : Jobs n Job} (hw : s.work i = .idle) (hj : s.jobs.start i = some jobs) (k : Fin n) :
    ({ s with jobs := jobs }.setWork i .called).jobsBefore stage k = s.jobsBefore stage k := by
  obtain ⟨-, -, rfl⟩ := Jobs.start_some hj
  by_cases hk : k = i
  · subst hk
    simp only [State.jobsBefore, State.setWork, Function.update_self, hw]
    rfl
  · simp only [State.jobsBefore, State.setWork, Function.update_of_ne hk]

/-- worker `i` removes the job that is done -/
theorem jobsBefore_finish {jobs : Jobs n Job} (hw : s.work i = .done) (hj : s.jobs.finish i = some jobs) (k : Fin n) :
    ({ s with jobs := jobs }.setWork i .idle).jobsBefore stage k = s.jobsBefore stage k := by
  obtain ⟨-, rfl⟩ := Jobs.finish_some hj
  by_cases hk : k = i
  · subst hk
    simp only [State.jobsBefore, State.setWork, Function.update_self, hw]
    rfl
  · simp only [State.jobsBefore, State.setWork, Function.update_of_ne hk]

/-- worker `i` is done with the job at the head of its queue -/
theorem jobsBefore_done {w : Work} {j : Job} (hj : (s.jobs.queue i).head? = some j)
    (hw : s.jobsBefore stage i = s.jobs.queue i) (hnew : remaining stage w (s.finishedResults.pc (some i))
      (s.jobs.queue i) = (s.jobs.queue i).tail) :
    s.jobsBefore stage i = j :: (s.setWork i w).jobsBefore stage i ∧
      ∀ k, k ≠ i → (s.setWork i w).jobsBefore stage k = s.jobsBefore stage k := by
  obtain ⟨rest, hrest⟩ := List.head?_eq_some_iff.1 hj
  constructor
  · rw [hw]
    simp only [State.jobsBefore, State.setWork, Function.update_self]
    rw [hnew, hrest, List.tail_cons]
  · intro k hk
    simp only [State.jobsBefore, State.setWork, Function.update_of_ne hk]

/-- an insertion is done -/
theorem before_insert {j : Job} (hw : s.work i = .called) (hj : (s.jobs.queue i).head? = some j) (hnode : g j = none)
    (hg : ∀ j', g' j' = g j') : (s.setWork i .done).before stage g' = s.before stage g := by
  have hqueue : s.jobsBefore stage i = s.jobs.queue i := by simp only [State.jobsBefore, hw]; rfl
  have hpass := @jobsBefore_done n s stage i .done j hj hqueue rfl
  have hsum := before_pass hpass.1 hpass.2 fun _ j' _ => hg j'
  rw [hsum, hnode, Option.toList_none, Multiset.coe_nil, add_zero]

theorem insertJobs_node {t : MatchType} {p : ℕ} {ws : List Word} {j : Job} (hj : j ∈ insertJobs t p ws) :
    j.node = none := by
  obtain ⟨w, -, rfl⟩ := List.mem_map.1 hj
  cases t <;> rfl

/-- the next job that `StartQuery` submits is no `match_doc` -/
theorem Starting.node (h : Starting s) {p : ℕ} {j : Job} {rest : List Job} (hc : s.client = .starting p (j :: rest)) :
    j.node = none := by
  obtain ⟨-, query, before, -, hjobs⟩ := h p _ hc
  exact insertJobs_node (hjobs ▸ List.mem_append_right _ List.mem_cons_self)

end Jobs

/-! ## The nodes of `docs` -/

section Nodes

variable {n : ℕ} [NeZero n] {s s' : State n} {a : Act n}

/-- the nodes of `docs` are those of the jobs and that of the client -/
def Nodes (s : State n) : Prop :=
  s.before .unlinked Job.node + (s.client.node : Multiset ℕ) = (s.docs.nodes.map Prod.fst : Multiset ℕ)

theorem nodes_remove {docs docs' : DList DocumentResults} {node : ℕ} (h : docs.remove node = some docs') :
    (docs.nodes.map Prod.fst : Multiset ℕ) = (docs'.nodes.map Prod.fst : Multiset ℕ) + ([node] : Multiset ℕ) := by
  obtain ⟨hmem, hnodes, -⟩ := DList.remove_some h
  have herase : docs'.nodes.map Prod.fst = (docs.nodes.map Prod.fst).erase node := by
    rw [hnodes, docs.nodup.erase_eq_filter, List.filter_map]
    exact congrArg _ (List.filter_congr fun v _ => by by_cases hv : v.1 = node <;> simp [hv])
  rw [herase, Multiset.coe_add]
  exact Multiset.coe_eq_coe.2 ((List.perm_cons_erase hmem).trans (List.perm_append_singleton _ _).symm)

theorem Move.nodes (hm : Move s a s') (hc : Control s.jobs s.work) (hst : Starting s) (h : Nodes s) : Nodes s' := by
  unfold Nodes at h ⊢
  cases hm
  case submitJob j rest hcl =>
    rw [hcl] at h
    refine (congrArg (· + _) (before_submit hc j (by rfl) (by rfl) (fun _ => by rfl) fun _ _ _ => by rfl)).trans ?_
    rw [hst.node hcl, Option.toList_none, Multiset.coe_nil, add_zero]
    exact h
  case submitDoc node res hcl hres =>
    rw [hcl] at h
    refine (congrArg (· + _) (before_submit hc (.matchDoc node) (by rfl) (by rfl) (fun _ => by rfl)
      fun _ _ _ => by rfl)).trans ?_
    exact (add_zero _).trans h
  case append hcl =>
    rw [hcl] at h
    change _ = (((s.docs.append _).nodes.map Prod.fst : List ℕ) : Multiset ℕ)
    rw [DList.nodes_append, List.map_append, ← Multiset.coe_add, ← h]
    exact congrArg (· + _) (add_zero _).symm
  case parse hcl hres hw =>
    rw [hcl] at h
    change _ = (((s.docs.modify _ _).nodes.map Prod.fst : List ℕ) : Multiset ℕ)
    rw [DList.nodes_modify, LinkedList.modifyNodes_fst]
    exact h
  case start hj =>
    exact (congrArg (· + _) (before_same (jobsBefore_start (hc.idle_of_start hj) hj) fun _ _ _ => by rfl)).trans h
  case finish hw hj =>
    exact (congrArg (· + _) (before_same (jobsBefore_finish hw hj) fun _ _ _ => by rfl)).trans h
  case insertTree hw hj _ => exact (congrArg (· + _) (before_insert hw hj (by rfl) fun _ => by rfl)).trans h
  case insertTable hw hj => exact (congrArg (· + _) (before_insert hw hj (by rfl) fun _ => by rfl)).trans h
  case beginDoc hw hj _ =>
    exact (congrArg (· + _) (before_same (jobsBefore_setWork (by simp only [State.jobsBefore, hw]; rfl))
      fun _ _ _ => by rfl)).trans h
  case unlink i c node r docs hr hpc hd =>
    obtain ⟨hw, hj⟩ := docRun_some.1 hr
    have hqueue : s.jobsBefore .unlinked i = s.jobs.queue i := by simp only [State.jobsBefore, hw, remaining]; rfl
    have hpass := @jobsBefore_done n s .unlinked i .done _ hj hqueue rfl
    have hsum := before_pass (g := Job.node) hpass.1 hpass.2 fun _ _ _ => rfl
    rw [hsum, nodes_remove hd] at h
    refine add_right_cancel (Eq.trans ?_ h)
    exact add_right_comm _ _ _
  case store hr _ _ _ _ | add hr _ _ _ =>
    change _ = (((s.docs.modify _ _).nodes.map Prod.fst : List ℕ) : Multiset ℕ)
    rw [DList.nodes_modify, LinkedList.modifyNodes_fst]
    exact (congrArg (· + _) (before_same (jobsBefore_run (docRun_some.1 hr).1 (by rfl)) fun _ _ _ => by rfl)).trans h
  case submitMatch hr _ | waitMatch hr _ | startTask hr _ | readKeys hr _ _ | readExact hr _ _ | search hr _ _ _ |
      searched hr _ | added hr _ | finishTask hr _ _ =>
    exact (congrArg (· + _) (before_same (jobsBefore_run (docRun_some.1 hr).1 (by rfl)) fun _ _ _ => by rfl)).trans h
  case move hr _ _ _ | moved hr _ _ =>
    exact (congrArg (· + _) (before_same (fun k => (jobsBefore_run (docRun_some.1 hr).1 (by rfl) k).trans
      (remaining_unlinked _ _ _ _)) fun _ _ _ => by rfl)).trans h
  case badQuery hcl _ | startQuery hcl _ | endQuery hcl | count hcl _ | register hcl _ _ | endUnknown hcl _ _ |
      ended hcl _ _ _ | cleared hcl _ =>
    rw [hcl] at h
    exact (congrArg (· + _) (before_congr (by rfl) (by rfl) (by rfl))).trans h
  case matchDocument hcl =>
    rw [hcl] at h
    refine (congrArg (· + _) (before_congr (by rfl) (by rfl) (by rfl))).trans (Eq.trans ?_ h)
    dsimp only
    split <;> rfl
  case getNextAvailRes hcl _ | peekedNone hcl _ | peeked hcl _ | read hcl _ _ | dequeued hcl _ =>
    rw [hcl] at h
    exact (congrArg (· + _) (before_same (fun _ => remaining_unlinked _ _ _ _) fun _ _ _ => by rfl)).trans h
  case clientQueue | workQueue | spurious =>
    exact (congrArg (· + _) (before_same (fun _ => remaining_unlinked _ _ _ _) fun _ _ _ => by rfl)).trans h

theorem nodes_init : Nodes (State.init : State n) := by
  have h : (State.init : State n).before .unlinked Job.node = 0 := Finset.sum_eq_zero fun _ _ => rfl
  rw [Nodes, h]
  rfl

omit [NeZero n] in
theorem mem_before {stage : Stage} {g : Job → Option ℕ} {x : ℕ} :
    x ∈ s.before stage g ↔ ∃ i, ∃ j ∈ s.jobsBefore stage i, g j = some x := by
  simp [State.before, Multiset.mem_sum]

omit [NeZero n] in
/-- the node of a job is in `docs` -/
theorem Nodes.live (h : Nodes s) {i : Fin n} {node : ℕ} (hi : .matchDoc node ∈ s.jobsBefore .unlinked i) :
    ∃ res, s.docs.get node = some res := by
  rw [← DList.mem_nodes, ← Multiset.mem_coe, ← h]
  exact Multiset.mem_add.2 (.inl (mem_before.2 ⟨i, _, hi, rfl⟩))

omit [NeZero n] in
/-- two workers have jobs for different nodes -/
theorem Nodes.ne (h : Nodes s) {i k : Fin n} (hik : i ≠ k) {node node' : ℕ}
    (hi : .matchDoc node ∈ s.jobsBefore .unlinked i) (hk : .matchDoc node' ∈ s.jobsBefore .unlinked k) :
    node ≠ node' := by
  rintro rfl
  have hd : (s.before .unlinked Job.node).Nodup := by
    refine (Multiset.nodup_add.1 (?_ : (_ + (s.client.node : Multiset ℕ)).Nodup)).1
    rw [h]
    exact s.docs.nodup
  unfold State.before at hd
  rw [← Finset.add_sum_erase _ _ (Finset.mem_univ i)] at hd
  have hfirst : node ∈ ((s.jobsBefore .unlinked i).filterMap Job.node : Multiset ℕ) :=
    List.mem_filterMap.2 ⟨_, hi, rfl⟩
  refine Multiset.disjoint_left.1 (Multiset.nodup_add.1 hd).2.2 hfirst (Multiset.mem_sum.2 ⟨k, ?_, ?_⟩)
  · exact Finset.mem_erase.2 ⟨hik.symm, Finset.mem_univ k⟩
  · exact List.mem_filterMap.2 ⟨_, hk, rfl⟩

omit [NeZero n] in
/-- the node that the client holds is that of no job -/
theorem Nodes.client_ne (h : Nodes s) {i : Fin n} {node node' : ℕ} (hi : .matchDoc node ∈ s.jobsBefore .unlinked i)
    (hc : node' ∈ s.client.node) : node' ≠ node := by
  rintro rfl
  have hd : (s.before .unlinked Job.node + (s.client.node : Multiset ℕ)).Nodup := by
    rw [h]
    exact s.docs.nodup
  exact Multiset.disjoint_left.1 (Multiset.nodup_add.1 hd).2.2 (mem_before.2 ⟨i, _, hi, rfl⟩) hc

omit [NeZero n] in
/-- the node of a running `match_doc` -/
theorem mem_jobsBefore_run {i : Fin n} {node : ℕ} {r : DocRun} (hr : s.docRun i = some (node, r)) :
    .matchDoc node ∈ s.jobsBefore .unlinked i := by
  obtain ⟨hw, hj⟩ := docRun_some.1 hr
  have hqueue : s.jobsBefore .unlinked i = s.jobs.queue i := by simp only [State.jobsBefore, hw, remaining]; rfl
  rw [hqueue]
  exact List.mem_of_mem_head? hj

end Nodes

end K23Search.Core
