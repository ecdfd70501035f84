/-
The way of a document: from the call of `MatchDocument` to a job of a worker, from `match_doc` to `finished_results`, and
from there to the caller of `GetNextAvailRes`.

Results:
- `Way.placed`: every submitted document is pending, finished or returned, and only one of them;
- `exhausted_blocks`: `finished_results` is never closed, so a call of `GetNextAvailRes` with nothing left to return
  never returns.
-/
import K23Search.Core.Calls
import K23Search.Core.History

namespace K23Search.Core

open K23Search.Lib K23Search.Text
open CQueue (Pc Call Ret)

/-! ## Model -/

def Reply.toResult : Reply → Option Result
  | .result r => some r
  | .code _ => none

namespace State

variable {n : ℕ} (s : State n)

/-- the documents in `finished_results` -/
def finished : Multiset ℕ := (s.finishedResults.q.nodes.map fun v => v.2.docId : List ℕ)

/-- the record that `GetNextAvailRes` has taken out, when it has not returned yet -/
def taken : List Result :=
  match s.client, s.finishedResults.pc none with
  | .dequeuing _, .lock _ => []
  | .dequeuing _, .locked _ => []
  | .dequeuing r, _ => [r]
  | _, _ => []

/-- what `GetNextAvailRes` has returned, or is about to return -/
def results : List Result := s.replies.filterMap Reply.toResult ++ s.taken

def returned : Multiset ℕ := (s.results.map Result.docId : List ℕ)

end State

/-! ## Conservation -/

section Conservation

variable {n : ℕ} {s s' : State n} {a : Act n}

/-- the documents of the jobs before a stage -/
def State.docsBefore (s : State n) (stage : Stage) : Multiset ℕ := s.before stage (Job.docId s.docs)

/-- every submitted document is before or past each stage -/
structure Conserved (s : State n) : Prop where
  stored : s.docsBefore .stored + (s.stored.map Prod.fst : Multiset ℕ) = (s.submitted : Multiset ℕ)
  handed : s.docsBefore .handed + (s.finished + s.returned) = (s.submitted : Multiset ℕ)

theorem Conserved.same (h : Conserved s) (hb : ∀ stage, s'.docsBefore stage = s.docsBefore stage)
    (hstored : s'.stored = s.stored) (hq : s'.finishedResults.q = s.finishedResults.q)
    (hret : s'.returned = s.returned) (hsub : s'.submitted = s.submitted) : Conserved s' := by
  have hfin : s'.finished = s.finished := by unfold State.finished; rw [hq]
  exact ⟨by rw [hb, hstored, hsub]; exact h.stored, by rw [hb, hfin, hret, hsub]; exact h.handed⟩

/-- a document is submitted -/
theorem Conserved.submit (h : Conserved s) {j : Job} {d : ℕ} (hid : j.docId s.docs = some d)
    (hb : ∀ stage, s'.docsBefore stage = s.docsBefore stage + ((j.docId s.docs).toList : Multiset ℕ))
    (hstored : s'.stored = s.stored) (hq : s'.finishedResults.q = s.finishedResults.q)
    (hret : s'.returned = s.returned) (hsub : s'.submitted = s.submitted ++ [d]) : Conserved s' := by
  have hfin : s'.finished = s.finished := by unfold State.finished; rw [hq]
  constructor
  · rw [hb, hstored, hsub, hid, ← Multiset.coe_add, ← h.stored]
    exact add_right_comm ..
  · rw [hb, hfin, hret, hsub, hid, ← Multiset.coe_add, ← h.handed]
    exact add_right_comm ..

/-- no worker waits for `finished_results`, so none is woken -/
theorem Calls.worker_pc (h : Calls s) {q : CQueue (Option (Fin n)) DocumentResults} {t : Option (Fin n)}
    {woken : Option (Fin n) → Bool} (hq : s.finishedResults.step t woken = some q) {k : Fin n} (hk : some k ≠ t) :
    q.pc (some k) = s.finishedResults.pc (some k) := by
  refine (CQueue.step_other hq hk).resolve_right ?_
  rintro ⟨c, hc, -⟩
  exact (h.worker k).not_waiting c hc

/-- the jobs before a stage are not past the last one -/
theorem jobsBefore_unlinked (s : State n) (stage : Stage) (i : Fin n) :
    s.jobsBefore stage i ⊆ s.jobsBefore .unlinked i := by
  unfold State.jobsBefore remaining
  cases s.work i with
  | done | idle | called => exact List.Subset.refl _
  | matching r =>
    change (if stage.past r.pc _ = true then _ else _) ⊆ s.jobs.queue i
    split
    · exact List.tail_subset _
    · exact List.Subset.refl _

theorem docId_of_get {docs : DList DocumentResults} {node : ℕ} {res : DocumentResults}
    (hres : docs.get node = some res) : Job.docId docs (.matchDoc node) = some res.docId := by
  simp [Job.docId, Job.node, docIdAt, hres]

theorem docId_modify (docs : DList DocumentResults) (a : ℕ) {f : DocumentResults → DocumentResults}
    (hf : ∀ res, (f res).docId = res.docId) (j : Job) : j.docId (docs.modify a f) = j.docId docs := by
  cases j with
  | matchDoc node =>
    simp only [Job.docId, Job.node, Option.bind_some, docIdAt, DList.get_modify]
    split
    · next hnode =>
      subst hnode
      cases docs.get node <;> simp [hf]
    · rfl
  | _ => rfl

theorem docId_append (docs : DList DocumentResults) (v : DocumentResults) {j : Job}
    (hj : ∀ node, j = .matchDoc node → ∃ res, docs.get node = some res) : j.docId (docs.append v) = j.docId docs := by
  cases j with
  | matchDoc node =>
    obtain ⟨res, hres⟩ := hj node rfl
    obtain ⟨res', hres', hid, -⟩ := kept_append docs v [] node res hres
    simp [Job.docId, Job.node, docIdAt, hres, hres', hid]
  | _ => rfl

theorem docId_remove {docs docs' : DList DocumentResults} {a : ℕ} (h : docs.remove a = some docs') {j : Job}
    (hj : ∀ node, j = .matchDoc node → ∃ res, docs'.get node = some res) : j.docId docs' = j.docId docs := by
  cases j with
  | matchDoc node =>
    obtain ⟨res, hres⟩ := hj node rfl
    rw [DList.get_remove h] at hres
    split at hres
    · cases hres
    · next hne => simp [Job.docId, Job.node, docIdAt, DList.get_remove h, hne]
  | _ => rfl

theorem taken_nil (h : ∀ r, s.client ≠ .dequeuing r) : s.taken = [] := by
  unfold State.taken
  split <;> first | rfl | exact absurd ‹s.client = _› (h _)

/-- the calls of the client that return nothing -/
theorem returned_same (hold : ∀ r, s.client ≠ .dequeuing r) (hnew : ∀ r, s'.client ≠ .dequeuing r)
    (hreplies : s'.replies = s.replies ∨ ∃ e, s'.replies = s.replies ++ [.code e]) : s'.returned = s.returned := by
  unfold State.returned State.results
  rw [taken_nil hold, taken_nil hnew]
  rcases hreplies with heq | ⟨e, heq⟩
  · rw [heq]
  · have hcode : [Reply.code e].filterMap Reply.toResult = [] := rfl
    rw [heq, List.filterMap_append, hcode, List.append_nil]

/-- a step of the client's call that does not look at the list returns nothing -/
theorem taken_next (hclient : s'.client = s.client)
    (h : (s.finishedResults.pc none).next = some (s'.finishedResults.pc none)) : s'.taken = s.taken := by
  unfold State.taken
  rw [hclient]
  cases hp : s.finishedResults.pc none with
  | unlock sig r =>
    rw [hp] at h
    rw [← Option.some.inj h]
    cases s.client <;> cases sig <;> rfl
  | lock k | signalLocked r | signal r =>
    rw [hp] at h
    rw [← Option.some.inj h]
    cases s.client <;> rfl
  | _ =>
    rw [hp] at h
    cases h

/-- waking the client returns nothing -/
theorem Calls.returned_woken (h : Calls s) (hclient : s'.client = s.client) (hreplies : s'.replies = s.replies)
    (hpc : s'.finishedResults.pc none = s.finishedResults.pc none ∨
      ∃ k, s.finishedResults.pc none = .waiting k ∧ s'.finishedResults.pc none = .lock k) :
    s'.returned = s.returned := by
  rcases hpc with heq | ⟨k, hk, -⟩
  · unfold State.returned State.results State.taken
    rw [hclient, hreplies, heq]
  · have hcall := h.client
    rw [hk] at hcall
    have hne : ∀ r, s.client ≠ .dequeuing r := by
      intro r hr
      rw [hr] at hcall
      exact hcall
    exact returned_same hne (hclient ▸ hne) (.inl hreplies)

variable {i : Fin n} {c : Choice n} {node : ℕ} {r : DocRun}

/-- `match_doc` stores its answer -/
theorem Conserved.store (h : Conserved s) {res : DocumentResults} (hr : s.docRun i = some (node, r))
    (hpc : r.pc = .waiting) (hres : s.docs.get node = some res) (order : List ℕ) :
    Conserved ({ s with
      docs := s.docs.modify node fun res => { res with answerLen := order.length, answer := order }
      stored := s.stored ++ [(res.docId, order)] }.setWork i (.matching { r with pc := .moving })) := by
  obtain ⟨hw, hj⟩ := docRun_some.1 hr
  constructor
  · have hqueue : s.jobsBefore .stored i = s.jobs.queue i := by simp only [State.jobsBefore, hw, remaining, hpc]; rfl
    have hpass := @jobsBefore_done n s .stored i (.matching { r with pc := .moving }) _ hj hqueue (by rfl)
    have hb := before_pass hpass.1 hpass.2 fun _ j _ => docId_modify s.docs node
      (f := fun res => { res with answerLen := order.length, answer := order }) (fun _ => rfl) j
    have hst := h.stored
    rw [State.docsBefore, hb, docId_of_get hres, add_assoc] at hst
    refine Eq.trans (congrArg (_ + ·) ?_) hst
    change (((s.stored ++ [(res.docId, order)]).map Prod.fst : List ℕ) : Multiset ℕ) = _
    rw [List.map_append, ← Multiset.coe_add, add_comm]
    rfl
  · refine Eq.trans (congrArg (· + _) ?_) h.handed
    refine before_same (jobsBefore_run hw ?_) fun _ j _ => docId_modify _ _ (fun _ => by rfl) j
    rw [hpc]
    rfl

/-- a step of the worker in `enqueue`: the document is in `finished_results` as soon as it is past the list -/
theorem Conserved.workQueue (h : Conserved s) (hcalls : Calls s) (hr : s.docRun i = some (node, r))
    (hpc : r.pc = .enqueuing) {q : CQueue (Option (Fin n)) DocumentResults}
    (hq : s.finishedResults.step (some i) c.woken = some q) : Conserved { s with finishedResults := q } := by
  obtain ⟨hw, hj⟩ := docRun_some.1 hr
  have hi := hcalls.worker i
  rw [hw] at hi
  simp only [WorkerCall, hpc] at hi
  have hsame : { s with finishedResults := q } = { s with finishedResults := q }.setWork i (s.work i) := by
    simp [State.setWork]
  have hne := fun k (hk : k ≠ i) => hcalls.worker_pc hq fun he => hk (Option.some.inj he)
  rcases CQueue.step_effect hq with ⟨k, hk, rfl⟩ | ⟨hnext, hnodes', hclosed⟩
  · rw [hk] at hi
    cases k with
    | enqueue v =>
      have hid : Job.docId s.docs (.matchDoc node) = some v.docId := by
        rw [hj] at hi
        exact hi.2
      rw [hsame]
      constructor
      · refine (congrArg (· + _) (before_same (jobsBefore_queue ?_ hne) fun _ _ _ => by rfl)).trans h.stored
        simp only [State.jobsBefore, hw, remaining, hpc]
        rfl
      · have hqueue : s.jobsBefore .handed i = s.jobs.queue i := by
          simp only [State.jobsBefore, hw, remaining, hpc, hk]
          rfl
        have hpass := jobsBefore_passed hj hqueue hne (w := s.work i) (by
          simp only [CQueue.body, CQueue.goto_pc, hw, remaining, hpc]
          rfl)
        have hb := before_pass (g := Job.docId s.docs) hpass.1 hpass.2 fun _ _ _ => rfl
        have hh := h.handed
        rw [State.docsBefore, hb, hid, add_assoc] at hh
        refine Eq.trans (congrArg (_ + ·) ?_) hh
        rw [← add_assoc]
        refine congrArg (· + _) ?_
        change (((s.finishedResults.q.append v).nodes.map fun v => v.2.docId : List ℕ) : Multiset ℕ) = _
        rw [DList.nodes_append, List.map_append, ← Multiset.coe_add, add_comm]
        rfl
    | _ => exact hi.elim
  · rw [hsame]
    refine h.same (fun stage => before_same (jobsBefore_queue ?_ hne) fun _ _ _ => by rfl) (by rfl) hnodes'
      (hcalls.returned_woken (by rfl) (by rfl) (CQueue.step_other hq (by simp))) (by rfl)
    simp only [State.jobsBefore, hw, remaining, hpc, past_next hnext]

/-- the worker removes its node from `docs` -/
theorem Conserved.unlink (h : Conserved s) {docs : DList DocumentResults}
    (hn' : Nodes ({ s with docs := docs }.setWork i .done)) (hr : s.docRun i = some (node, r)) (hpc : r.pc = .unlinking)
    (hd : s.docs.remove node = some docs) : Conserved ({ s with docs := docs }.setWork i .done) := by
  obtain ⟨hw, hj⟩ := docRun_some.1 hr
  have hb : ∀ stage, stage ≠ .unlinked →
      ({ s with docs := docs }.setWork i .done).docsBefore stage = s.docsBefore stage := by
    intro stage hstage
    have hsame : remaining stage .done (s.finishedResults.pc (some i)) (s.jobs.queue i) = s.jobsBefore stage i := by
      simp only [State.jobsBefore, hw, remaining, hpc]
      cases stage <;> first | rfl | exact absurd rfl hstage
    have hjobs := jobsBefore_setWork hsame
    refine before_same hjobs fun k j hj => docId_remove hd ?_
    rintro node' rfl
    rw [← hjobs k] at hj
    exact hn'.live (jobsBefore_unlinked _ stage k hj)
  exact ⟨(congrArg (· + _) (hb .stored (by simp))).trans h.stored, (congrArg (· + _) (hb .handed (by simp))).trans h.handed⟩

/-- a step of the client in `peek` or `dequeue`: the record it takes out is about to be returned -/
theorem Conserved.clientQueue (h : Conserved s) (hcalls : Calls s)
    (hcl : s.client = .peeking ∨ ∃ r, s.client = .dequeuing r) {woken : Option (Fin n) → Bool}
    {q : CQueue (Option (Fin n)) DocumentResults} (hq : s.finishedResults.step none woken = some q) :
    Conserved { s with finishedResults := q } := by
  have hcall := hcalls.client
  have hpc : ∀ k : Fin n, q.pc (some k) = s.finishedResults.pc (some k) := fun k => hcalls.worker_pc hq (by simp)
  have hb : ∀ stage, ({ s with finishedResults := q } : State n).docsBefore stage = s.docsBefore stage :=
    fun _ => before_same (jobsBefore_client (by rfl) (by rfl) hpc) fun _ _ _ => by rfl
  rcases CQueue.step_effect hq with ⟨k, hk, rfl⟩ | ⟨hnext, hnodes', -⟩
  · rw [hk] at hcall
    rcases hcl with hcl | ⟨r, hcl⟩
    · have hq' : (s.finishedResults.body none k).q = s.finishedResults.q := by
        rw [hcl] at hcall
        cases k with
        | peek => simp only [CQueue.body, CQueue.block]; split <;> rfl
        | _ => exact hcall.elim
      exact h.same hb (by rfl) hq' (returned_same (by simp [hcl]) (by simp [hcl]) (.inl (by rfl))) (by rfl)
    · rw [hcl] at hcall
      cases k with
      | dequeue =>
        obtain ⟨p, v, rest, hlist, hv⟩ := hcall
        obtain ⟨d, e, hd, hbody⟩ := CQueue.dequeue_cons (t := none) hlist
        refine ⟨(congrArg (· + _) (hb .stored)).trans h.stored, ?_⟩
        refine Eq.trans ?_ h.handed
        rw [hb]
        refine congrArg (_ + ·) ?_
        have hfin : s.finished = ([v.docId] : Multiset ℕ) + (rest.map fun v => v.2.docId : List ℕ) := by
          unfold State.finished
          rw [hlist]
          rfl
        have hret : s.returned = ((s.replies.filterMap Reply.toResult).map Result.docId : List ℕ) := by
          unfold State.returned State.results State.taken
          rw [hcl, hk, List.append_nil]
        rw [hfin, hret, hbody, add_assoc, add_comm ([v.docId] : Multiset ℕ), add_assoc]
        unfold State.finished State.returned State.results State.taken
        simp only [hcl, CQueue.goto_pc, List.map_append, ← Multiset.coe_add, ← hv]
        rw [show (CQueue.goto { s.finishedResults with q := d } none _).q.nodes = rest from hd]
        rfl
      | _ => exact hcall.elim
  · refine h.same hb (by rfl) hnodes' ?_ (by rfl)
    unfold State.returned State.results
    rw [taken_next (by rfl) hnext]

variable [NeZero n]

theorem Move.conserved (hm : Move s a s') (hc : Control s.jobs s.work) (hst : Starting s) (hn : Nodes s)
    (hn' : Nodes s') (hcalls : Calls s) (h : Conserved s) : Conserved s' := by
  have hlive : ∀ k stage node, Job.matchDoc node ∈ s.jobsBefore stage k → ∃ res, s.docs.get node = some res :=
    fun k stage node hj => hn.live (jobsBefore_unlinked s stage k hj)
  cases hm
  case badQuery hcl _ | register hcl _ _ | endUnknown hcl _ _ | ended hcl _ _ _ =>
    exact h.same (fun _ => before_congr (by rfl) (by rfl) (by rfl)) (by rfl) (by rfl)
      (returned_same (by simp [hcl]) (by simp) (.inr ⟨_, by rfl⟩)) (by rfl)
  case startQuery hcl _ | endQuery hcl | count hcl _ | cleared hcl _ =>
    exact h.same (fun _ => before_congr (by rfl) (by rfl) (by rfl)) (by rfl) (by rfl)
      (returned_same (by simp [hcl]) (by simp) (.inl (by rfl))) (by rfl)
  case matchDocument hcl =>
    refine h.same (fun _ => before_congr (by rfl) (by rfl) (by rfl)) (by rfl) (by rfl)
      (returned_same (by simp [hcl]) ?_ (.inl (by rfl))) (by rfl)
    dsimp only
    split <;> simp
  case submitJob j rest hcl =>
    refine h.same (fun stage => ?_) (by rfl) (by rfl) (returned_same (by simp [hcl]) (by simp) (.inl (by rfl)))
      (by rfl)
    refine (before_submit hc j (by rfl) (by rfl) (fun _ => by rfl) fun _ _ _ => by rfl).trans ?_
    rw [show j.docId _ = none by simp [Job.docId, hst.node hcl], Option.toList_none, Multiset.coe_nil, add_zero]
    rfl
  case submitDoc node res hcl hres =>
    exact h.submit (docId_of_get hres) (fun stage => before_submit hc (.matchDoc node) (by rfl) (by rfl) (fun _ => by rfl)
      fun _ _ _ => by rfl) (by rfl) (by rfl) (returned_same (by simp [hcl]) (by simp) (.inr ⟨_, by rfl⟩)) (by rfl)
  case append hcl =>
    refine h.same (fun stage => before_same (fun _ => by rfl) fun k j hj => docId_append _ _ ?_) (by rfl) (by rfl)
      (returned_same (by simp [hcl]) (by simp) (.inl (by rfl))) (by rfl)
    rintro node rfl
    exact hlive k stage node hj
  case parse hcl _ _ =>
    exact h.same (fun stage => before_same (fun _ => by rfl) fun _ j _ => docId_modify _ _ (fun _ => by rfl) j) (by rfl)
      (by rfl) (returned_same (by simp [hcl]) (by simp) (.inl (by rfl))) (by rfl)
  case start hj =>
    exact h.same (fun _ => before_same (jobsBefore_start (hc.idle_of_start hj) hj) fun _ _ _ => by rfl) (by rfl) (by rfl)
      (by rfl) (by rfl)
  case finish hw hj =>
    exact h.same (fun _ => before_same (jobsBefore_finish hw hj) fun _ _ _ => by rfl) (by rfl) (by rfl) (by rfl) (by rfl)
  case insertTree hw hj _ | insertTable hw hj =>
    exact h.same (fun _ => before_insert hw hj (by rfl) fun _ => by rfl) (by rfl) (by rfl) (by rfl) (by rfl)
  case beginDoc hw hj _ =>
    refine h.same (fun stage => before_same (jobsBefore_setWork ?_) fun _ _ _ => by rfl) (by rfl) (by rfl) (by rfl) (by rfl)
    simp only [State.jobsBefore, hw]
    cases stage <;> rfl
  case submitMatch hr hpc | waitMatch hr hpc =>
    refine h.same (fun stage => before_same (jobsBefore_run (docRun_some.1 hr).1 ?_) fun _ _ _ => by rfl) (by rfl) (by rfl)
      (by rfl) (by rfl)
    rw [hpc]
    cases stage <;> rfl
  case startTask hr _ | readKeys hr _ _ | readExact hr _ _ | search hr _ _ _ | searched hr _ | added hr _ |
      finishTask hr _ _ =>
    exact h.same (fun stage => before_same (jobsBefore_run (docRun_some.1 hr).1 (by rfl)) fun _ _ _ => by rfl) (by rfl)
      (by rfl) (by rfl) (by rfl)
  case add hr _ _ _ =>
    exact h.same (fun stage => before_same (jobsBefore_run (docRun_some.1 hr).1 (by rfl)) fun _ j _ =>
      docId_modify _ _ (fun _ => by rfl) j) (by rfl) (by rfl) (by rfl) (by rfl)
  case store i c node r res hr hpc _ hres _ => exact h.store hr hpc hres c.order
  case move i c node r res q hr hpc hres hq =>
    obtain ⟨hw, hj⟩ := docRun_some.1 hr
    obtain ⟨-, rfl⟩ := CQueue.call_some hq
    refine h.same (fun stage => before_same (jobsBefore_queue ?_ fun k hk => goto_worker _ _ hk) fun _ _ _ => by rfl)
      (by rfl) (by rfl) (by rfl) (by rfl)
    rw [CQueue.goto_pc]
    simp only [State.jobsBefore, hw, remaining, hpc]
    cases stage <;> rfl
  case workQueue hr hpc hq => exact h.workQueue hcalls hr hpc hq
  case moved i c node r x q hr hpc hq =>
    obtain ⟨hw, hj⟩ := docRun_some.1 hr
    obtain ⟨hp, rfl⟩ := CQueue.take_some hq
    refine h.same (fun stage => before_same (jobsBefore_queue ?_ fun k hk => goto_worker _ _ hk) fun _ _ _ => by rfl)
      (by rfl) (by rfl) (by rfl) (by rfl)
    rw [CQueue.goto_pc]
    simp only [State.jobsBefore, hw, remaining, hpc, hp]
    cases stage <;> rfl
  case unlink hr hpc hd => exact h.unlink hn' hr hpc hd
  case getNextAvailRes hcl hq =>
    obtain ⟨-, rfl⟩ := CQueue.call_some hq
    exact h.same (fun _ => before_same (jobsBefore_client (by rfl) (by rfl) fun k => goto_client _ _ k) fun _ _ _ => by rfl)
      (by rfl) (by rfl) (returned_same (by simp [hcl]) (by simp) (.inl (by rfl))) (by rfl)
  case peekedNone hcl hq =>
    obtain ⟨-, rfl⟩ := CQueue.take_some hq
    exact h.same (fun _ => before_same (jobsBefore_client (by rfl) (by rfl) fun k => goto_client _ _ k) fun _ _ _ => by rfl)
      (by rfl) (by rfl) (returned_same (by simp [hcl]) (by simp) (.inr ⟨_, by rfl⟩)) (by rfl)
  case peeked hcl hq =>
    obtain ⟨-, rfl⟩ := CQueue.take_some hq
    exact h.same (fun _ => before_same (jobsBefore_client (by rfl) (by rfl) fun k => goto_client _ _ k) fun _ _ _ => by rfl)
      (by rfl) (by rfl) (returned_same (by simp [hcl]) (by simp) (.inl (by rfl))) (by rfl)
  case read hcl hres hq =>
    obtain ⟨-, rfl⟩ := CQueue.call_some hq
    refine h.same (fun _ => before_same (jobsBefore_client (by rfl) (by rfl) fun k => goto_client _ _ k) fun _ _ _ => by rfl)
      (by rfl) (by rfl) ?_ (by rfl)
    unfold State.returned State.results
    rw [taken_nil (s := s) (by simp [hcl])]
    simp [State.taken]
  case dequeued hcl hq =>
    obtain ⟨hp, rfl⟩ := CQueue.take_some hq
    refine h.same (fun _ => before_same (jobsBefore_client (by rfl) (by rfl) fun k => goto_client _ _ k) fun _ _ _ => by rfl)
      (by rfl) (by rfl) ?_ (by rfl)
    unfold State.returned State.results
    rw [taken_nil (s := State.reply _ _) (by simp)]
    simp [State.taken, hcl, hp, State.reply, Reply.toResult]
  case clientQueue hcl hq => exact h.clientQueue hcalls hcl hq
  case spurious t q hq =>
    obtain ⟨k, hk, rfl⟩ := CQueue.spurious_some hq
    cases t with
    | some i => exact absurd hk ((hcalls.worker i).not_waiting k)
    | none =>
      exact h.same (fun _ => before_same (jobsBefore_client (by rfl) (by rfl) fun k => goto_client _ _ k)
        fun _ _ _ => by rfl) (by rfl) (by rfl) (hcalls.returned_woken (by rfl) (by rfl)
        (.inr ⟨k, hk, CQueue.goto_pc _ _ _⟩)) (by rfl)

theorem conserved_init : Conserved (State.init : State n) := by
  have hb : ∀ stage, (State.init : State n).docsBefore stage = 0 := by
    intro stage
    unfold State.docsBefore State.before
    exact Finset.sum_eq_zero fun _ _ => rfl
  exact ⟨by rw [hb]; rfl, by rw [hb]; rfl⟩

end Conservation

/-! ## Where every document is -/

section Places

variable {n : ℕ} {s s' : State n} {a : Act n} {as : List (Act n)}

/-- the document of a call of `MatchDocument` that has not submitted its job yet -/
def State.inHand (s : State n) : List ℕ :=
  match s.client with
  | .clearing d _ => [d]
  | .appending d _ => [d]
  | c => c.node.filterMap (docIdAt s.docs)

/-- every document passed to `MatchDocument` is submitted, or in the call's hand -/
def Submitted (as : List (Act n)) (s : State n) : Prop := (documents as).map Prod.fst = s.submitted ++ s.inHand

/-- the invariant of the way of the documents -/
structure Way (as : List (Act n)) (s : State n) : Prop where
  control : Control s.jobs s.work
  starting : Starting s
  nodes : Nodes s
  calls : Calls s
  conserved : Conserved s
  submitted : Submitted as s

theorem documents_none (as : List (Act n)) {a : Act n} (h : a.document = none) : documents (as ++ [a]) = documents as := by
  rw [documents_snoc, h, Option.toList_none, List.append_nil]

/-- a step outside `MatchDocument` -/
theorem Submitted.frame (h : Submitted as s) (ha : a.document = none) (hsub : s'.submitted = s.submitted)
    (hhand : s'.inHand = s.inHand) : Submitted (as ++ [a]) s' := by
  rw [Submitted, documents_none as ha, hsub, hhand]
  exact h

theorem inHand_eq {c : ClientPc} (hc : s.client = c) : s.inHand = ({ s with client := c } : State n).inHand := by
  subst hc
  rfl

/-- a worker's step keeps the document in the client's hand -/
theorem inHand_worker (hc : s'.client = s.client)
    (hd : ∀ node ∈ s.client.node, docIdAt s'.docs node = docIdAt s.docs node) : s'.inHand = s.inHand := by
  unfold State.inHand
  rw [hc]
  split
  · rfl
  · rfl
  · exact List.filterMap_congr hd

theorem docIdAt_modify (docs : DList DocumentResults) (a : ℕ) {f : DocumentResults → DocumentResults}
    (hf : ∀ res, (f res).docId = res.docId) (node : ℕ) : docIdAt (docs.modify a f) node = docIdAt docs node :=
  docId_modify docs a hf (.matchDoc node)

variable [NeZero n]

theorem Move.submitted (hm : Move s a s') (hn : Nodes s) (h : Submitted as s) : Submitted (as ++ [a]) s' := by
  cases hm
  case badQuery hcl _ | startQuery hcl _ | endQuery hcl | count hcl _ | register hcl _ _ | endUnknown hcl _ _ |
      ended hcl _ _ _ | submitJob hcl | getNextAvailRes hcl _ | peekedNone hcl _ | peeked hcl _ | read hcl _ _ |
      dequeued hcl _ =>
    have hold : s.inHand = [] := inHand_eq hcl
    exact h.frame rfl rfl (by rw [hold]; rfl)
  case matchDocument d str hcl =>
    have hold : s.inHand = [] := inHand_eq hcl
    unfold Submitted at h ⊢
    rw [documents_snoc, List.map_append, h, hold, List.append_nil]
    refine congrArg (s.submitted ++ ·) ?_
    unfold State.inHand
    dsimp only
    cases s.queryHasStarted <;> rfl
  case cleared hcl _ =>
    refine h.frame rfl rfl ?_
    unfold State.inHand
    rw [hcl]
  case append hcl =>
    refine h.frame rfl rfl ?_
    unfold State.inHand
    rw [hcl]
    simp [ClientPc.node, docIdAt, DList.get_append, DocumentResults.make]
  case parse hcl _ _ =>
    refine h.frame rfl rfl ?_
    unfold State.inHand
    rw [hcl]
    exact List.filterMap_congr fun node _ => docIdAt_modify _ _ (fun _ => by rfl) node
  case submitDoc node res hcl hres =>
    have hold : s.inHand = [res.docId] := by
      unfold State.inHand
      rw [hcl]
      simp [ClientPc.node, docIdAt, hres]
    unfold Submitted at h ⊢
    rw [documents_none as rfl, h, hold]
    exact (List.append_nil _).symm
  case store hr _ _ _ _ | add hr _ _ _ =>
    exact h.frame rfl rfl (inHand_worker rfl fun node _ => docIdAt_modify _ _ (fun _ => by rfl) node)
  case unlink i c node r docs hr hpc hd =>
    refine h.frame rfl rfl (inHand_worker rfl fun node' hnode => ?_)
    have hne := hn.client_ne (mem_jobsBefore_run hr) hnode
    exact congrArg (Option.map DocumentResults.docId) ((DList.get_remove hd node').trans (if_neg hne))
  all_goals exact h.frame rfl rfl (inHand_worker rfl fun _ _ => rfl)

theorem way_step (h : Way as s) (hm : Move s a s') : Way (as ++ [a]) s' := by
  have hnodes := hm.nodes h.control h.starting h.nodes
  exact ⟨hm.control h.control, hm.starting h.starting, hnodes, hm.calls h.control h.nodes h.calls,
    hm.conserved h.control h.starting h.nodes hnodes h.calls h.conserved, hm.submitted h.nodes h.submitted⟩

theorem way_init : Way [] (State.init : State n) :=
  ⟨control_init, starting_init, nodes_init, calls_init, conserved_init, rfl⟩

/-- **The way of the documents**, in every reachable state -/
theorem way (hr : run State.step State.init as = some s) : Way as s :=
  run_induction (G := fun _ _ _ => True) way_init (fun _ _ _ _ _ _ h hs => way_step h (step_move hs))
    (meets_true _ _ _) hr

/-! ## Main results -/

omit [NeZero n] in
theorem Way.submitted_nodup (h : Way as s) (hd : ((documents as).map Prod.fst).Nodup) : s.submitted.Nodup := by
  rw [h.submitted, List.nodup_append] at hd
  exact hd.1

/-- a place where a document can be -/
inductive Place where
  /-- waiting or running as a `match_doc` job -/
  | pending
  /-- in `finished_results` -/
  | finished
  /-- returned by `GetNextAvailRes` -/
  | returned
deriving DecidableEq, Repr

def State.docsAt (s : State n) : Place → Multiset ℕ
  | .pending => s.docsBefore .handed
  | .finished => s.finished
  | .returned => s.returned

omit [NeZero n] in
theorem Way.count (h : Way as s) (d : ℕ) :
    (s.docsAt .pending).count d + (s.docsAt .finished).count d + (s.docsAt .returned).count d = s.submitted.count d := by
  rw [← Multiset.coe_count, ← h.conserved.handed, Multiset.count_add, Multiset.count_add, ← add_assoc]
  rfl

omit [NeZero n] in
theorem Calls.answered (h : Calls s) {r : Result} (hr : r ∈ s.results) : Answered s.stored r := by
  refine h.results r ?_
  rcases List.mem_append.1 hr with hr | hr
  · obtain ⟨e, he, hres⟩ := List.mem_filterMap.1 hr
    cases e with
    | code e => cases hres
    | result r' =>
      cases hres
      exact .inr he
  · unfold State.taken at hr
    split at hr
    · cases hr
    · cases hr
    · next r' hc _ _ =>
      rw [List.mem_singleton.1 hr]
      exact .inl hc
    · cases hr

omit [NeZero n] in
/-- one answer is stored for a document -/
theorem Way.stored_unique (h : Way as s) (hd : ((documents as).map Prod.fst).Nodup) {d : ℕ} {ids ids' : List ℕ}
    (hi : (d, ids) ∈ s.stored) (hi' : (d, ids') ∈ s.stored) : ids' = ids := by
  have hnodup : (s.stored.map Prod.fst).Nodup := by
    have hsum : (s.docsBefore .stored + (s.stored.map Prod.fst : Multiset ℕ)).Nodup := by
      rw [h.conserved.stored]
      exact h.submitted_nodup hd
    exact (Multiset.nodup_add.1 hsum).2.1
  exact congrArg Prod.snd (List.inj_on_of_nodup_map hnodup hi' hi rfl)

/-- the workers of a `match_doc` run their jobs one after another, each in so many steps -/
def runTasks (i : Fin n) (steps : List ℕ) : List (Act n) :=
  ((List.finRange 3).zip steps).flatMap fun p =>
    .startTask i p.1 :: List.replicate p.2 (.task i p.1) ++ [.finishTask i p.1]

/-- a document of one word, from `MatchDocument` to `GetNextAvailRes`, with one worker -/
def oneDocument : List (Act 1) :=
  let i : Fin 1 := ⟨0, Nat.one_pos⟩
  let choice : Choice 1 := ⟨⟨0, bkTreeSkipListLevels_pos⟩, fun _ => true, []⟩
  let client : Act 1 := .client fun _ => true
  [.matchDocument 7 [97, 98, 99, 100], client, client, client, .start i] ++ List.replicate 5 (.work i choice) ++
  runTasks i [2, 2, 3] ++ List.replicate 8 (.work i choice) ++ [.finish i, .getNextAvailRes] ++ List.replicate 10 client

theorem oneDocument_returned : ∃ s, run State.step State.init oneDocument = some s ∧ s.client = .idle ∧
    s.submitted = [7] ∧ s.replies = [.code .success, .result ⟨7, 0, []⟩] := by
  have hobs : (run State.step State.init oneDocument).map (fun s => (s.client, s.submitted, s.replies)) =
      some (.idle, [7], [.code .success, .result ⟨7, 0, []⟩]) := by decide +kernel
  obtain ⟨s, hs, heq⟩ := Option.map_eq_some_iff.1 hobs
  simp only [Prod.mk.injEq] at heq
  exact ⟨s, hs, heq⟩

/-- each submitted document is in one place, and there once; what `GetNextAvailRes` returns is the one answer stored for a
submitted document, and no document is returned twice -/
structure Placed (s : State n) : Prop where
  place : ∀ d ∈ s.submitted, ∃! p, d ∈ s.docsAt p
  once : ∀ p, ∀ d ∈ s.docsAt p, d ∈ s.submitted ∧ (s.docsAt p).count d = 1
  returned_nodup : (s.results.map Result.docId).Nodup
  answer : ∀ r ∈ s.results, r.docId ∈ s.submitted ∧ r.numRes = r.queryIds.length ∧
    ∀ ids, (r.docId, ids) ∈ s.stored ↔ ids = r.queryIds

omit [NeZero n] in
theorem Way.placed (h : Way as s) (hd : ((documents as).map Prod.fst).Nodup) : Placed s := by
  have hnodup := h.submitted_nodup hd
  have hle : ∀ d, s.submitted.count d ≤ 1 := List.nodup_iff_count_le_one.1 hnodup
  have hplace : ∀ p d, d ∈ s.docsAt p ↔ 0 < (s.docsAt p).count d := fun p d => Multiset.count_pos.symm
  have hreturned : ∀ d, d ∈ s.results.map Result.docId ↔ d ∈ s.docsAt .returned := fun _ => Iff.rfl
  have hsubmitted : ∀ p, ∀ d ∈ s.docsAt p, d ∈ s.submitted ∧ (s.docsAt p).count d = 1 := by
    intro p d hp
    have hcount := h.count d
    have hone := hle d
    rw [hplace] at hp
    have hpos : 0 < s.submitted.count d := by cases p <;> omega
    exact ⟨List.count_pos_iff.1 hpos, by cases p <;> omega⟩
  refine ⟨fun d hmem => ?_, hsubmitted, ?_, fun r hr => ?_⟩
  · have hcount := h.count d
    have hone : s.submitted.count d = 1 := List.count_eq_one_of_mem hnodup hmem
    have hex : ∃ p, d ∈ s.docsAt p := by
      by_contra hno
      have hzero : ∀ p, (s.docsAt p).count d = 0 := by
        intro p
        exact Multiset.count_eq_zero.2 fun hp => hno ⟨p, hp⟩
      have := hzero .pending
      have := hzero .finished
      have := hzero .returned
      omega
    obtain ⟨p, hp⟩ := hex
    refine ⟨p, hp, fun p' hp' => ?_⟩
    rw [hplace] at hp hp'
    cases p <;> cases p' <;> first | rfl | omega
  · refine List.nodup_iff_count_le_one.2 fun d => ?_
    have hcount := h.count d
    have hone := hle d
    have hret : (s.docsAt .returned).count d = (s.results.map Result.docId).count d := Multiset.coe_count ..
    omega
  · obtain ⟨hstored, hnum⟩ := h.calls.answered hr
    refine ⟨(hsubmitted .returned _ ((hreturned _).1 (List.mem_map_of_mem hr))).1, hnum, fun ids => ⟨fun hi => ?_, ?_⟩⟩
    · exact h.stored_unique hd hstored hi
    · rintro rfl
      exact hstored

/-! ### An exhausted engine -/

/-- a call that has found `finished_results` empty, with no document on its way to it -/
structure Blocked (s : State n) (replies : List Reply) : Prop where
  peeking : s.client = .peeking
  replies_eq : s.replies = replies
  exhausted : s.submitted.length ≤ s.results.length

omit [NeZero n] in
/-- nothing is pending or finished when as many documents are returned as were submitted -/
theorem Way.exhausted (h : Way as s) (hlen : s.submitted.length ≤ s.results.length) : s.finishedResults.q.nodes = [] := by
  have hcard := congrArg Multiset.card h.conserved.handed
  simp only [Multiset.card_add, Multiset.coe_card] at hcard
  have hret : Multiset.card s.returned = s.results.length := by
    unfold State.returned
    rw [Multiset.coe_card, List.length_map]
  have hfin : Multiset.card s.finished = s.finishedResults.q.nodes.length := by
    unfold State.finished
    rw [Multiset.coe_card, List.length_map]
  exact List.length_eq_zero_iff.1 (by omega)

theorem Blocked.step {replies : List Reply} (hb : Blocked s replies) (h : Way as s) (hm : Move s a s') :
    Blocked s' replies := by
  obtain ⟨hp, hreplies, hlen⟩ := hb
  have hempty := h.exhausted hlen
  have htaken : ∀ t : State n, t.client = .peeking → t.taken = [] := fun t ht => taken_nil (by rw [ht]; exact nofun)
  have hkeep : s'.client = s.client → s'.replies = s.replies → s'.submitted = s.submitted → Blocked s' replies := by
    intro hc hr hs
    refine ⟨hc.trans hp, hr.trans hreplies, ?_⟩
    unfold State.results at hlen ⊢
    rw [htaken s' (hc.trans hp), hr, hs]
    rwa [htaken s hp] at hlen
  cases hm
  case peekedNone hc hq | peeked hc hq =>
    obtain ⟨hpc, -⟩ := CQueue.take_some hq
    have hcall := h.calls.client
    rw [hc, hpc, hempty] at hcall
    first
    | exact hcall.elim
    | (obtain ⟨v, rest, hnil⟩ := hcall; cases hnil)
  case badQuery hc _ | startQuery hc _ | endQuery hc | matchDocument hc | getNextAvailRes hc _ | submitJob hc | count hc _ |
      register hc _ _ | endUnknown hc _ _ | ended hc _ _ _ | cleared hc _ | append hc | parse hc _ _ | submitDoc hc _ |
      read hc _ _ | dequeued hc _ =>
    cases hp.symm.trans hc
  all_goals exact hkeep rfl rfl rfl

/-- the call stays where it is -/
theorem Blocked.run {replies : List Reply} (hb : Blocked s replies) (h : Way as s) {bs : List (Act n)} {t : State n}
    (hr : Lib.run State.step s bs = some t) : Blocked t replies := by
  have hinv := run_inv (I := fun t => Blocked t replies ∧ ∃ as, Way as t) ⟨hb, as, h⟩
    (fun u b v ⟨hu, cs, hway⟩ hs => ⟨hu.step hway (step_move hs), _, way_step hway (step_move hs)⟩) hr
  exact hinv.1

/-- a call made when everything is returned -/
theorem Way.blocked (h : Way as s) (hlen : s.submitted.length ≤ s.results.length) (hc : s.client = .idle) :
    ∃ s₁, s.step .getNextAvailRes = some s₁ ∧ Blocked s₁ s.replies := by
  have hpc : s.finishedResults.pc none = .idle := by
    have hcall := h.calls.client
    rw [hc] at hcall
    exact hcall
  have hq : s.finishedResults.call none .peek = some (s.finishedResults.goto none (.lock .peek)) := by
    simp only [CQueue.call, hpc]
  refine ⟨{ s with finishedResults := s.finishedResults.goto none (.lock .peek), client := .peeking },
    by simp only [State.step, hc, hq, Option.map_some], rfl, rfl, ?_⟩
  unfold State.results at hlen
  rw [taken_nil (by simp [hc])] at hlen
  exact hlen

/-- **An exhausted engine does not answer.** In no run does a call of `GetNextAvailRes` return that is made when all
documents submitted have been returned. -/
theorem exhausted_blocks (hr : run State.step State.init as = some s) (hc : s.client = .idle)
    (hall : s.submitted.Subperm (s.results.map Result.docId)) :
    (∃ s₁, s.step .getNextAvailRes = some s₁) ∧
    ∀ bs t, run State.step s (.getNextAvailRes :: bs) = some t → t.client = .peeking ∧ t.replies = s.replies := by
  have h := way hr
  have hlen : s.submitted.length ≤ s.results.length := by
    have hle := hall.length_le
    rwa [List.length_map] at hle
  obtain ⟨s₁, hs₁, hblocked⟩ := h.blocked hlen hc
  refine ⟨⟨s₁, hs₁⟩, fun bs t ht => ?_⟩
  simp only [Lib.run, hs₁, Option.bind_some] at ht
  have hfinal := hblocked.run (way_step h (step_move hs₁)) ht
  exact ⟨hfinal.peeking, hfinal.replies_eq⟩

theorem oneDocument_results {s : State 1} (hc : s.client = .idle)
    (hreplies : s.replies = [.code .success, .result ⟨7, 0, []⟩]) : s.results.map Result.docId = [7] := by
  unfold State.results
  rw [taken_nil (by rw [hc]; exact nofun), hreplies]
  rfl

theorem exhausted_blocks_one : ∃ s, run State.step State.init oneDocument = some s ∧ s.client = .idle ∧
    s.submitted.Subperm (s.results.map Result.docId) ∧ ∀ bs t, run State.step s (.getNextAvailRes :: bs) = some t →
      t.client = .peeking ∧ t.replies = s.replies := by
  obtain ⟨s, hs, hc, hsub, hreplies⟩ := oneDocument_returned
  have hall : s.submitted.Subperm (s.results.map Result.docId) := by
    rw [hsub, oneDocument_results hc hreplies]
  exact ⟨s, hs, hc, hall, (exhausted_blocks hs hc hall).2⟩

/-- after the one document submitted has been returned, no call is told that there is none -/
theorem no_answer_after_one_document : ¬ ∀ (as : List (Act 1)) s, run State.step State.init as = some s →
    s.client = .idle → s.submitted.Subperm (s.results.map Result.docId) → ∃ bs t,
      run State.step s (.getNextAvailRes :: bs) = some t ∧ t.client = .idle ∧
        t.replies = s.replies ++ [.code .noAvailRes] := by
  intro hclaim
  obtain ⟨s, hs, hc, hsub, hreplies⟩ := oneDocument_returned
  have hids := oneDocument_results hc hreplies
  have hlen : s.submitted.length ≤ s.results.length := by
    have hmap := congrArg List.length hids
    rw [List.length_map] at hmap
    rw [hsub, hmap]
  obtain ⟨bs, t, ht, hidle, -⟩ := hclaim oneDocument s hs hc (by rw [hsub, hids])
  obtain ⟨s₁, hs₁, hblocked⟩ := (way hs).blocked hlen hc
  simp only [Lib.run, hs₁, Option.bind_some] at ht
  have hpeek := (hblocked.run (way_step (way hs) (step_move hs₁)) ht).peeking
  rw [hidle] at hpeek
  cases hpeek

end Places

end K23Search.Core
