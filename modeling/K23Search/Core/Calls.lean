/-
The calls of `finished_results`: the client's `peek` and `dequeue`, and the `enqueue` of a running `match_doc`. The
record that the client reads is the one it takes out, and every record carries an answer that is stored.

Result:
- `Move.calls`: every step keeps this.
-/
import K23Search.Core.Nodes

namespace K23Search.Core

open K23Search.Lib K23Search.Text
open CQueue (Pc Call Ret)

/-! ## Model -/

/-- what `GetNextAvailRes` reads of a record -/
def DocumentResults.result (res : DocumentResults) : Result := ⟨res.docId, res.answerLen, res.answer⟩

/-- the answer is the one that `match_doc` stored for the document -/
def Answered (stored : List (ℕ × List ℕ)) (r : Result) : Prop :=
  (r.docId, r.queryIds) ∈ stored ∧ r.numRes = r.queryIds.length

/-! ## The calls of `finished_results` -/

/-- the client in its call; `peek` returned the head of the queue, and `dequeue` takes out the record that was read -/
def ClientCall (nodes : List (ℕ × DocumentResults)) (c : ClientPc) (p : Pc DocumentResults) : Prop :=
  match c with
  | .peeking =>
    match p with
    | .lock .peek => True
    | .locked .peek => True
    | .waiting .peek => True
    | .unlock false (.ptr (some a)) => ∃ v rest, nodes = (a, v) :: rest
    | .done (.ptr (some a)) => ∃ v rest, nodes = (a, v) :: rest
    | _ => False
  | .peeked a => p = .idle ∧ ∃ v rest, nodes = (a, v) :: rest
  | .dequeuing r =>
    match p with
    | .lock .dequeue => ∃ a v rest, nodes = (a, v) :: rest ∧ v.result = r
    | .locked .dequeue => ∃ a v rest, nodes = (a, v) :: rest ∧ v.result = r
    | .signalLocked (.item _ _) => True
    | .unlock false (.item _ _) => True
    | .done (.item _ _) => True
    | _ => False
  | _ => p = .idle

/-- a worker in its call: it enqueues the record of the document of its job, with the answer stored -/
def WorkerCall (docs : DList DocumentResults) (stored : List (ℕ × List ℕ)) (queue : List Job) (w : Work)
    (p : Pc DocumentResults) : Prop :=
  match w with
  | .matching r =>
    match r.pc with
    | .moving => p = .idle ∧ ∃ node res, queue.head? = some (.matchDoc node) ∧ docs.get node = some res ∧
        Answered stored res.result
    | .enqueuing =>
      match p with
      | .lock (.enqueue v) => Answered stored v.result ∧ (queue.head?.bind (Job.docId docs)) = some v.docId
      | .locked (.enqueue v) => Answered stored v.result ∧ (queue.head?.bind (Job.docId docs)) = some v.docId
      | .unlock _ (.flag _) => True
      | .signal (.flag _) => True
      | .done (.flag _) => True
      | _ => False
    | _ => p = .idle
  | _ => p = .idle

/-- the record at a node still has its document, and an answer that is stored if it had one -/
def Kept (docs docs' : DList DocumentResults) (stored stored' : List (ℕ × List ℕ)) (node : ℕ) : Prop :=
  ∀ res, docs.get node = some res → ∃ res', docs'.get node = some res' ∧ res'.docId = res.docId ∧
    (Answered stored res.result → Answered stored' res'.result)

section Kept

variable {docs docs' : DList DocumentResults} {stored stored' : List (ℕ × List ℕ)} {node : ℕ}

theorem kept_modify (docs : DList DocumentResults) (a : ℕ) {f : DocumentResults → DocumentResults}
    (hf : ∀ res, (f res).result = res.result) (stored : List (ℕ × List ℕ)) (node : ℕ) :
    Kept docs (docs.modify a f) stored stored node := by
  intro res hres
  rw [DList.get_modify]
  split
  · next hnode =>
    rw [← hnode, hres]
    exact ⟨f res, rfl, congrArg Result.docId (hf res), by rw [hf]; exact id⟩
  · exact ⟨res, hres, rfl, id⟩

theorem kept_refl (docs : DList DocumentResults) (stored : List (ℕ × List ℕ)) (node : ℕ) :
    Kept docs docs stored stored node := fun res hres => ⟨res, hres, rfl, id⟩

theorem kept_append (docs : DList DocumentResults) (v : DocumentResults) (stored : List (ℕ × List ℕ)) (node : ℕ) :
    Kept docs (docs.append v) stored stored node := by
  intro res hres
  have hlt : node < docs.fresh := DList.lt_fresh_of_get hres
  rw [DList.get_append, if_neg (Nat.ne_of_lt hlt)]
  exact ⟨res, hres, rfl, id⟩

theorem kept_remove {a : ℕ} (h : docs.remove a = some docs') (hne : node ≠ a) : Kept docs docs' stored stored node := by
  intro res hres
  rw [DList.get_remove h, if_neg hne]
  exact ⟨res, hres, rfl, id⟩

theorem Answered.mono {r : Result} (h : Answered stored r) (hs : stored ⊆ stored') : Answered stored' r :=
  ⟨hs h.1, h.2⟩

/-- `match_doc` stores its answer -/
theorem kept_store {a : ℕ} {res : DocumentResults} (hres : docs.get a = some res) (order : List ℕ) :
    Kept docs (docs.modify a fun res => { res with answerLen := order.length, answer := order }) stored
      (stored ++ [(res.docId, order)]) node := by
  intro res' hres'
  rw [DList.get_modify]
  split
  · next hnode =>
    subst hnode
    rw [hres] at hres'
    cases hres'
    rw [hres]
    exact ⟨_, rfl, rfl, fun _ => ⟨List.mem_append_right _ (List.mem_singleton_self _), rfl⟩⟩
  · exact ⟨res', hres', rfl, fun h => h.mono (List.subset_append_left _ _)⟩

theorem WorkerCall.mono {queue queue' : List Job} {w : Work} {p : Pc DocumentResults}
    (h : WorkerCall docs stored queue w p) (hq : ∀ j, queue.head? = some j → queue'.head? = some j)
    (hd : ∀ r node, w = .matching r → queue.head? = some (.matchDoc node) → Kept docs docs' stored stored' node)
    (hs : stored ⊆ stored') : WorkerCall docs' stored' queue' w p := by
  have hid : ∀ r d, w = .matching r → queue.head?.bind (Job.docId docs) = some d →
      queue'.head?.bind (Job.docId docs') = some d := by
    intro r d hw hdoc
    obtain ⟨j, hj, hdoc⟩ := Option.bind_eq_some_iff.1 hdoc
    obtain ⟨node, hnode, hdoc⟩ := Option.bind_eq_some_iff.1 hdoc
    obtain ⟨res, hres, rfl⟩ := Option.map_eq_some_iff.1 hdoc
    cases j with
    | matchDoc node' =>
      cases hnode
      obtain ⟨res', hres', hdoc, -⟩ := hd r _ hw hj res hres
      rw [hq _ hj]
      simp [Job.docId, Job.node, docIdAt, hres', hdoc]
    | _ => cases hnode
  cases w with
  | idle | called | done => exact h
  | matching r =>
    cases hpc : r.pc with
    | moving =>
      simp only [WorkerCall, hpc] at h ⊢
      obtain ⟨hp, node, res, hj, hres, hans⟩ := h
      obtain ⟨res', hres', -, hans'⟩ := hd r node rfl hj res hres
      exact ⟨hp, node, res', hq _ hj, hres', hans' hans⟩
    | enqueuing =>
      simp only [WorkerCall, hpc] at h ⊢
      split at h
      · exact ⟨h.1.mono hs, hid r _ rfl h.2⟩
      · exact ⟨h.1.mono hs, hid r _ rfl h.2⟩
      all_goals trivial
    | submitting rest => simpa only [WorkerCall, hpc] using h
    | waiting => simpa only [WorkerCall, hpc] using h
    | unlinking => simpa only [WorkerCall, hpc] using h

end Kept

/-- the invariant of `finished_results` -/
structure Calls {n : ℕ} (s : State n) : Prop where
  opened : s.finishedResults.closed = false
  client : ClientCall s.finishedResults.q.nodes s.client (s.finishedResults.pc none)
  worker : ∀ i, WorkerCall s.docs s.stored (s.jobs.queue i) (s.work i) (s.finishedResults.pc (some i))
  finished : ∀ v ∈ s.finishedResults.q.nodes, Answered s.stored v.2.result
  results : ∀ r, (s.client = .dequeuing r ∨ .result r ∈ s.replies) → Answered s.stored r

section Calls

variable {n : ℕ} {s s' : State n} {a : Act n}

/-- a submission does not change the head of a queue -/
theorem submit_head [NeZero n] {J : Type} (jobs : Jobs n J) (j : J) {k : Fin n} {j' : J}
    (h : (jobs.queue k).head? = some j') : ((jobs.submit j).queue k).head? = some j' := by
  rcases Jobs.submit_queue jobs j k with ⟨-, heq⟩ | ⟨-, heq⟩
  · rwa [heq]
  · rw [heq, List.head?_append, h]
    rfl

/-- the thread of a worker that is not enqueuing is in no call -/
theorem WorkerCall.idle {docs : DList DocumentResults} {stored : List (ℕ × List ℕ)} {queue : List Job} {w : Work}
    {p : Pc DocumentResults} (h : WorkerCall docs stored queue w p) (hw : ∀ r, w = .matching r → r.pc ≠ .enqueuing) :
    p = .idle := by
  cases w with
  | idle | called | done => exact h
  | matching r =>
    cases hpc : r.pc with
    | enqueuing => exact absurd hpc (hw r rfl)
    | moving =>
      simp only [WorkerCall, hpc] at h
      exact h.1
    | submitting rest => simpa only [WorkerCall, hpc] using h
    | waiting => simpa only [WorkerCall, hpc] using h
    | unlinking => simpa only [WorkerCall, hpc] using h

/-- a step outside `finished_results` -/
theorem Calls.frame (h : Calls s) (hfin : s'.finishedResults = s.finishedResults)
    (hclient : ∀ nodes p, ClientCall nodes s.client p → ClientCall nodes s'.client p)
    (hworker : ∀ k, WorkerCall s.docs s.stored (s.jobs.queue k) (s.work k) (s.finishedResults.pc (some k)) →
      WorkerCall s'.docs s'.stored (s'.jobs.queue k) (s'.work k) (s.finishedResults.pc (some k)))
    (hstored : s.stored ⊆ s'.stored)
    (hres : ∀ r, (s'.client = .dequeuing r ∨ .result r ∈ s'.replies) → s.client = .dequeuing r ∨ .result r ∈ s.replies) :
    Calls s' where
  opened := by rw [hfin]; exact h.opened
  client := by rw [hfin]; exact hclient _ _ h.client
  worker k := by rw [hfin]; exact hworker k (h.worker k)
  finished v hv := (h.finished v (hfin ▸ hv)).mono hstored
  results r hr := (h.results r (hres r hr)).mono hstored

theorem Calls.setWork (h : Calls s) {i : Fin n} {w : Work} (hfin : s'.finishedResults = s.finishedResults)
    (hclient : s'.client = s.client) (hreplies : s'.replies = s.replies) (hqueue : s'.jobs.queue = s.jobs.queue)
    (hwork : s'.work = Function.update s.work i w) (hstored : s.stored ⊆ s'.stored)
    (hd : ∀ k r node, k ≠ i → s.work k = .matching r → (s.jobs.queue k).head? = some (.matchDoc node) →
      Kept s.docs s'.docs s.stored s'.stored node)
    (hi : WorkerCall s.docs s.stored (s.jobs.queue i) (s.work i) (s.finishedResults.pc (some i)) →
      WorkerCall s'.docs s'.stored (s.jobs.queue i) w (s.finishedResults.pc (some i))) : Calls s' := by
  refine h.frame hfin (fun _ _ hc => by rwa [hclient]) (fun k hk => ?_) hstored (fun r hr => by rwa [hclient, hreplies] at hr)
  rw [hqueue, hwork]
  by_cases hki : k = i
  · subst hki
    rw [Function.update_self]
    exact hi hk
  · rw [Function.update_of_ne hki]
    exact hk.mono (fun _ => id) (fun r node hr hj => hd k r node hki hr hj) hstored

theorem WorkerCall.not_waiting {docs : DList DocumentResults} {stored : List (ℕ × List ℕ)} {queue : List Job} {w : Work}
    {p : Pc DocumentResults} (h : WorkerCall docs stored queue w p) (k : Call DocumentResults) : p ≠ .waiting k := by
  rintro rfl
  cases w with
  | idle | called | done => cases h
  | matching r => cases hpc : r.pc <;> simp [WorkerCall, hpc] at h

theorem WorkerCall.next {docs : DList DocumentResults} {stored : List (ℕ × List ℕ)} {queue : List Job} {w : Work}
    {p p' : Pc DocumentResults} (h : WorkerCall docs stored queue w p) (hp : p.next = some p') :
    WorkerCall docs stored queue w p' := by
  cases w with
  | idle | called | done =>
    cases h
    cases hp
  | matching r =>
    cases hpc : r.pc with
    | enqueuing =>
      simp only [WorkerCall, hpc] at h ⊢
      split at h
      case h_3 sig _ => cases sig <;> (cases hp; trivial)
      all_goals first
        | exact h.elim
        | (cases hp; exact h)
        | cases hp
    | moving =>
      simp only [WorkerCall, hpc] at h
      cases h.1
      cases hp
    | submitting rest =>
      simp only [WorkerCall, hpc] at h
      cases h
      cases hp
    | waiting | unlinking =>
      simp only [WorkerCall, hpc] at h
      cases h
      cases hp

theorem ClientCall.woken {nodes : List (ℕ × DocumentResults)} {c : ClientPc} {k : Call DocumentResults}
    (h : ClientCall nodes c (.waiting k)) : ClientCall nodes c (.lock k) := by
  cases c <;> cases k <;> simp_all [ClientCall]

theorem ClientCall.next {nodes : List (ℕ × DocumentResults)} {c : ClientPc} {p p' : Pc DocumentResults}
    (h : ClientCall nodes c p) (hp : p.next = some p') : ClientCall nodes c p' := by
  cases c
  case peeking =>
    simp only [ClientCall] at h
    split at h <;> first | exact h.elim | (cases hp; exact h) | cases hp
  case dequeuing r =>
    simp only [ClientCall] at h
    split at h <;> first | exact h.elim | (cases hp; exact h) | cases hp
  case peeked =>
    cases h.1
    cases hp
  all_goals
    cases h
    cases hp

/-- a record more at the end of the queue -/
theorem ClientCall.append {nodes : List (ℕ × DocumentResults)} {c : ClientPc} {p : Pc DocumentResults}
    (h : ClientCall nodes c p) (x : ℕ × DocumentResults) : ClientCall (nodes ++ [x]) c p := by
  cases c
  case peeking =>
    simp only [ClientCall] at h ⊢
    split at h
    case h_4 | h_5 =>
      obtain ⟨v, rest, rfl⟩ := h
      exact ⟨v, rest ++ [x], rfl⟩
    all_goals exact h
  case dequeuing r =>
    simp only [ClientCall] at h ⊢
    split at h
    case h_1 | h_2 =>
      obtain ⟨a, v, rest, rfl, hv⟩ := h
      exact ⟨a, v, rest ++ [x], rfl, hv⟩
    all_goals exact h
  case peeked =>
    obtain ⟨hp, v, rest, rfl⟩ := h
    exact ⟨hp, v, rest ++ [x], rfl⟩
  all_goals exact h

/-- the client goes on outside `finished_results` -/
theorem Calls.client_frame (h : Calls s) {c : ClientPc} (hfin : s'.finishedResults = s.finishedResults)
    (hold : ∀ nodes p, ClientCall nodes s.client p → p = .idle) (hc : s'.client = c)
    (hnew : ∀ nodes, ClientCall nodes c .idle) (hne : ∀ r, c ≠ .dequeuing r)
    (hworker : ∀ k, WorkerCall s.docs s.stored (s.jobs.queue k) (s.work k) (s.finishedResults.pc (some k)) →
      WorkerCall s'.docs s'.stored (s'.jobs.queue k) (s'.work k) (s.finishedResults.pc (some k)))
    (hstored : s'.stored = s.stored) (hreplies : s'.replies = s.replies ∨ ∃ e, s'.replies = s.replies ++ [.code e]) :
    Calls s' := by
  refine h.frame hfin (fun nodes p hp => ?_) hworker (by rw [hstored]; exact List.Subset.refl _) fun r hr => ?_
  · rw [hold nodes p hp, hc]
    exact hnew nodes
  · rw [hc] at hr
    refine .inr ?_
    rcases hr with hr | hr
    · exact absurd hr (hne r)
    · rcases hreplies with heq | ⟨e, heq⟩
      · rwa [heq] at hr
      · rw [heq, List.mem_append] at hr
        exact hr.resolve_right (by simp)

/-- a call of a worker changes the queue's list at most by a record at its end -/
theorem Calls.worker_queue (h : Calls s) {q : CQueue (Option (Fin n)) DocumentResults} {i : Fin n}
    (hq : q.closed = false) (hnodes : q.q.nodes = s.finishedResults.q.nodes ∨ ∃ x, q.q.nodes = s.finishedResults.q.nodes ++ [x] ∧
      Answered s.stored x.2.result)
    (hother : ∀ u, u ≠ some i → q.pc u = s.finishedResults.pc u ∨
      ∃ k, s.finishedResults.pc u = .waiting k ∧ q.pc u = .lock k)
    {w : Work} (hi : WorkerCall s.docs s.stored (s.jobs.queue i) w (q.pc (some i))) :
    Calls ({ s with finishedResults := q }.setWork i w) := by
  have hclient : ClientCall s.finishedResults.q.nodes s.client (q.pc none) := by
    rcases hother none nofun with heq | ⟨k, hk, heq⟩
    · rw [heq]
      exact h.client
    · have hwait := h.client
      rw [hk] at hwait
      rw [heq]
      exact hwait.woken
  constructor
  case opened => exact hq
  case client =>
    change ClientCall q.q.nodes s.client (q.pc none)
    rcases hnodes with heq | ⟨x, heq, -⟩
    · rwa [heq]
    · rw [heq]
      exact hclient.append x
  case worker =>
    intro k
    change WorkerCall s.docs s.stored (s.jobs.queue k) (Function.update s.work i w k) (q.pc (some k))
    by_cases hk : k = i
    · subst hk
      rwa [Function.update_self]
    · rw [Function.update_of_ne hk]
      rcases hother (some k) (fun he => hk (Option.some.inj he)) with heq | ⟨c, hc, -⟩
      · rw [heq]
        exact h.worker k
      · exact absurd hc ((h.worker k).not_waiting c)
  case finished =>
    intro v hv
    change v ∈ q.q.nodes at hv
    rcases hnodes with heq | ⟨x, heq, hx⟩
    · exact h.finished v (heq ▸ hv)
    · rw [heq, List.mem_append, List.mem_singleton] at hv
      rcases hv with hv | rfl
      · exact h.finished v hv
      · exact hx
  case results => exact h.results

/-- a call of the client -/
theorem Calls.client_queue (h : Calls s) (hopened : s'.finishedResults.closed = false)
    (hnodes : s'.finishedResults.q.nodes ⊆ s.finishedResults.q.nodes)
    (hother : ∀ u, u ≠ none → s'.finishedResults.pc u = s.finishedResults.pc u ∨
      ∃ c, s.finishedResults.pc u = .waiting c ∧ s'.finishedResults.pc u = .lock c)
    (hdocs : s'.docs = s.docs) (hstored : s'.stored = s.stored) (hjobs : s'.jobs = s.jobs) (hwork : s'.work = s.work)
    (hclient : ClientCall s'.finishedResults.q.nodes s'.client (s'.finishedResults.pc none))
    (hres : ∀ r, (s'.client = .dequeuing r ∨ .result r ∈ s'.replies) → Answered s.stored r) : Calls s' where
  opened := hopened
  client := hclient
  worker k := by
    rw [hdocs, hstored, hjobs, hwork]
    rcases hother (some k) nofun with heq | ⟨c, hc, -⟩
    · rw [heq]
      exact h.worker k
    · exact absurd hc ((h.worker k).not_waiting c)
  finished v hv := by
    rw [hstored]
    exact h.finished v (hnodes hv)
  results r hr := by
    rw [hstored]
    exact hres r hr

/-- the client goes on in its call, and the list stays as it is -/
theorem Calls.client_goto (h : Calls s) {p : Pc DocumentResults} (hfin : s'.finishedResults = s.finishedResults.goto none p)
    (hdocs : s'.docs = s.docs) (hstored : s'.stored = s.stored) (hjobs : s'.jobs = s.jobs) (hwork : s'.work = s.work)
    (hclient : ClientCall s.finishedResults.q.nodes s'.client p)
    (hres : ∀ r, (s'.client = .dequeuing r ∨ .result r ∈ s'.replies) → Answered s.stored r) : Calls s' := by
  refine h.client_queue (by rw [hfin]; exact h.opened) (by rw [hfin]; exact List.Subset.refl _) (fun u hu => .inl ?_)
    hdocs hstored hjobs hwork ?_ hres
  · rw [hfin]
    exact CQueue.goto_pc_ne _ hu _
  · rw [hfin, CQueue.goto_pc]
    exact hclient

section Docs

variable {i : Fin n} {c : Choice n} {node : ℕ} {r : DocRun}

/-- `match_doc` stores its answer -/
theorem Calls.store (h : Calls s) {res : DocumentResults} (hr : s.docRun i = some (node, r))
    (hpc : r.pc = .waiting) (hres : s.docs.get node = some res) (order : List ℕ) :
    Calls ({ s with
      docs := s.docs.modify node fun res => { res with answerLen := order.length, answer := order }
      stored := s.stored ++ [(res.docId, order)] }.setWork i (.matching { r with pc := .moving })) := by
  obtain ⟨hw, hj⟩ := docRun_some.1 hr
  refine h.setWork rfl rfl rfl rfl rfl (List.subset_append_left _ _) (fun _ _ _ _ _ _ => kept_store hres _) fun hi => ?_
  have hp := hi.idle (by rw [hw]; rintro _ ⟨⟩; simp [hpc])
  refine ⟨hp, node, { res with answerLen := order.length, answer := order }, hj, ?_, ?_⟩
  · change (s.docs.modify node _).get node = _
    rw [DList.get_modify, if_pos rfl, hres]
    rfl
  · exact ⟨List.mem_append_right _ (List.mem_singleton_self _), rfl⟩

/-- the worker calls `enqueue` with the record that has its answer -/
theorem Calls.move (h : Calls s) {res : DocumentResults} (hr : s.docRun i = some (node, r)) (hpc : r.pc = .moving)
    (hres : s.docs.get node = some res) {q : CQueue (Option (Fin n)) DocumentResults}
    (hq : s.finishedResults.call (some i) (.enqueue res) = some q) :
    Calls ({ s with finishedResults := q }.setWork i (.matching { r with pc := .enqueuing })) := by
  obtain ⟨hw, hj⟩ := docRun_some.1 hr
  obtain ⟨-, rfl⟩ := CQueue.call_some hq
  have hi := h.worker i
  rw [hw] at hi
  simp only [WorkerCall, hpc] at hi
  obtain ⟨-, node', res', hj', hres', hans⟩ := hi
  cases hj.symm.trans hj'
  cases hres.symm.trans hres'
  refine h.worker_queue (by exact h.opened) (.inl (by rfl)) (fun u hu => .inl (by exact CQueue.goto_pc_ne _ hu _)) ?_
  rw [CQueue.goto_pc]
  exact ⟨hans, by simp [hj, Job.docId, Job.node, docIdAt, hres]⟩

/-- a step of the worker in `enqueue` -/
theorem Calls.workQueue (h : Calls s) (hr : s.docRun i = some (node, r)) (hpc : r.pc = .enqueuing)
    {q : CQueue (Option (Fin n)) DocumentResults} (hq : s.finishedResults.step (some i) c.woken = some q) :
    Calls { s with finishedResults := q } := by
  obtain ⟨hw, hj⟩ := docRun_some.1 hr
  have hi := h.worker i
  have hsame : { s with finishedResults := q } = { s with finishedResults := q }.setWork i (s.work i) := by
    simp [State.setWork]
  rw [hsame]
  rcases CQueue.step_effect hq with ⟨k, hk, rfl⟩ | ⟨hnext, hnodes', hclosed⟩
  · rw [hw, hk] at hi
    simp only [WorkerCall, hpc] at hi
    cases k with
    | enqueue v =>
      refine h.worker_queue (by exact h.opened) (.inr ⟨_, by exact DList.nodes_append _ _, hi.1⟩) (fun u hu =>
        .inl (by exact CQueue.body_pc_ne _ hu _)) ?_
      rw [hw]
      simp only [CQueue.body, CQueue.goto_pc, WorkerCall, hpc]
    | _ => exact hi.elim
  · exact h.worker_queue (hclosed.trans h.opened) (.inl (by rw [hnodes'])) (fun u hu => CQueue.step_other hq hu)
      (hi.next hnext)

end Docs

/-- a step of the client in `peek` or `dequeue` -/
theorem Calls.clientQueue (h : Calls s) (hcl : s.client = .peeking ∨ ∃ r, s.client = .dequeuing r)
    {woken : Option (Fin n) → Bool} {q : CQueue (Option (Fin n)) DocumentResults}
    (hq : s.finishedResults.step none woken = some q) : Calls { s with finishedResults := q } := by
  have hcall := h.client
  have hres : ∀ r, (s.client = .dequeuing r ∨ .result r ∈ s.replies) → Answered s.stored r := h.results
  rcases CQueue.step_effect hq with ⟨k, hk, rfl⟩ | ⟨hnext, hnodes', hclosed⟩
  · rw [hk] at hcall
    rcases hcl with hcl | ⟨r, hcl⟩
    · rw [hcl] at hcall
      cases k with
      | peek =>
        cases hlist : s.finishedResults.q.nodes with
        | nil =>
          rw [CQueue.peek_empty h.opened hlist]
          refine h.client_queue h.opened (fun _ hv => hv) (fun u hu => .inl (CQueue.goto_pc_ne _ hu _)) rfl rfl rfl rfl
            ?_ hres
          simp only [CQueue.block, CQueue.goto_pc, hcl]
          trivial
        | cons x rest =>
          rw [CQueue.peek_cons hlist]
          refine h.client_queue h.opened (fun _ hv => hv) (fun u hu => .inl (CQueue.goto_pc_ne _ hu _)) rfl rfl rfl rfl
            ?_ hres
          simp only [CQueue.goto_pc, hcl]
          exact ⟨x.2, rest, hlist⟩
      | _ => exact hcall.elim
    · rw [hcl] at hcall
      cases k with
      | dequeue =>
        obtain ⟨p, v, rest, hlist, -⟩ := hcall
        obtain ⟨d, e, hd, hbody⟩ := CQueue.dequeue_cons (t := none) hlist
        rw [hbody]
        refine h.client_queue h.opened (fun v hv => ?_) (fun u hu => .inl (CQueue.goto_pc_ne _ hu _)) rfl rfl rfl rfl
          ?_ hres
        · change v ∈ d.nodes at hv
          rw [hd] at hv
          rw [hlist]
          exact List.mem_cons_of_mem _ hv
        · simp only [CQueue.goto_pc, hcl]
          trivial
      | _ => exact hcall.elim
  · refine h.client_queue (hclosed.trans h.opened) (fun v hv => hnodes' ▸ hv) (fun u hu => CQueue.step_other hq hu)
      rfl rfl rfl rfl ?_ hres
    rw [show ({ s with finishedResults := q } : State n).finishedResults.q = _ from hnodes']
    exact hcall.next hnext

variable [NeZero n]

theorem Move.calls (hm : Move s a s') (hc : Control s.jobs s.work) (hnodes : Nodes s) (h : Calls s) : Calls s' := by
  cases hm
  case badQuery hcl _ | register hcl _ _ | endUnknown hcl _ _ | ended hcl _ _ _ =>
    exact h.client_frame rfl (fun _ _ hp => by rwa [hcl] at hp) rfl (fun _ => rfl) (by simp) (fun _ => id) rfl
      (.inr ⟨_, rfl⟩)
  case startQuery hcl _ | endQuery hcl | count hcl _ | cleared hcl _ =>
    exact h.client_frame rfl (fun _ _ hp => by rwa [hcl] at hp) rfl (fun _ => rfl) (by simp) (fun _ => id) rfl (.inl rfl)
  case matchDocument hcl =>
    refine h.client_frame rfl (fun _ _ hp => by rwa [hcl] at hp) rfl ?_ ?_ (fun _ => id) rfl (.inl rfl)
    · dsimp only
      split <;> exact fun _ => rfl
    · dsimp only
      split <;> simp
  case submitJob hcl =>
    refine h.client_frame rfl (fun _ _ hp => by rwa [hcl] at hp) rfl (fun _ => rfl) (by simp) (fun k hk => ?_) rfl (.inl rfl)
    exact hk.mono (fun j hj => submit_head _ _ hj) (fun _ _ _ _ => kept_refl _ _ _) (List.Subset.refl _)
  case submitDoc hcl _ =>
    refine h.client_frame rfl (fun _ _ hp => by rwa [hcl] at hp) rfl (fun _ => rfl) (by simp) (fun k hk => ?_) rfl
      (.inr ⟨_, rfl⟩)
    exact hk.mono (fun j hj => submit_head _ _ hj) (fun _ _ _ _ => kept_refl _ _ _) (List.Subset.refl _)
  case append hcl =>
    refine h.client_frame rfl (fun _ _ hp => by rwa [hcl] at hp) rfl (fun _ => rfl) (by simp) (fun k hk => ?_) rfl (.inl rfl)
    exact hk.mono (fun _ => id) (fun _ _ _ _ => kept_append _ _ _ _) (List.Subset.refl _)
  case parse hcl _ _ =>
    refine h.client_frame rfl (fun _ _ hp => by rwa [hcl] at hp) rfl (fun _ => rfl) (by simp) (fun k hk => ?_) rfl (.inl rfl)
    exact hk.mono (fun _ => id) (fun _ _ _ _ => kept_modify _ _ (fun _ => by rfl) _ _) (List.Subset.refl _)
  case start i jobs hj =>
    obtain ⟨-, -, hjobs⟩ := Jobs.start_some hj
    refine h.setWork rfl rfl rfl (by rw [hjobs]; rfl) rfl (List.Subset.refl _) (fun _ _ _ _ _ _ => kept_refl _ _ _)
      fun hi => ?_
    exact hi.idle (by simp [hc.idle_of_start hj])
  case finish i jobs hw hj =>
    obtain ⟨-, rfl⟩ := Jobs.finish_some hj
    refine h.frame rfl (fun _ _ => id) (fun k hk => ?_) (List.Subset.refl _) fun _ => id
    change WorkerCall s.docs s.stored (Function.update s.jobs.queue i _ k) (Function.update s.work i .idle k) _
    by_cases hki : k = i
    · subst hki
      rw [Function.update_self, Function.update_self]
      exact hk.idle (by simp [hw])
    · rwa [Function.update_of_ne hki, Function.update_of_ne hki]
  case insertTree hw _ _ | insertTable hw _ | beginDoc hw _ _ =>
    refine h.setWork rfl rfl rfl rfl rfl (List.Subset.refl _) (fun _ _ _ _ _ _ => kept_refl _ _ _) fun hi => ?_
    exact hi.idle (by simp [hw])
  case submitMatch hr hpc | waitMatch hr hpc =>
    refine h.setWork rfl rfl rfl rfl rfl (List.Subset.refl _) (fun _ _ _ _ _ _ => kept_refl _ _ _) fun hi => ?_
    exact hi.idle (by rw [(docRun_some.1 hr).1]; rintro _ ⟨⟩; simp [hpc])
  case startTask hr _ | readKeys hr _ _ | readExact hr _ _ | search hr _ _ _ | searched hr _ | added hr _ |
      finishTask hr _ _ =>
    refine h.setWork rfl rfl rfl rfl rfl (List.Subset.refl _) (fun _ _ _ _ _ _ => kept_refl _ _ _) fun hi => ?_
    rw [(docRun_some.1 hr).1] at hi
    exact hi
  case add hr _ hres ha =>
    refine h.setWork rfl rfl rfl rfl rfl (List.Subset.refl _) (fun _ _ _ _ _ _ => kept_modify _ _ (fun _ => by rfl) _ _)
      fun hi => ?_
    rw [(docRun_some.1 hr).1] at hi
    exact hi.mono (fun _ => id) (fun _ _ _ _ => kept_modify _ _ (fun _ => by rfl) _ _) (List.Subset.refl _)
  case store i c node r res hr hpc _ hres _ => exact h.store hr hpc hres c.order
  case unlink i c node r docs hr hpc hd =>
    refine h.setWork rfl rfl rfl rfl rfl (List.Subset.refl _) (fun k r' node' hk hw hj => kept_remove hd ?_) fun hi => ?_
    · exact (hnodes.ne (Ne.symm hk) (mem_jobsBefore_run hr) (mem_jobsBefore_run (docRun_some.2 ⟨hw, hj⟩))).symm
    · exact hi.idle (by rw [(docRun_some.1 hr).1]; rintro _ ⟨⟩; simp [hpc])
  case move hr hpc hres hq => exact h.move hr hpc hres hq
  case workQueue hr hpc hq => exact h.workQueue hr hpc hq
  case moved i c node r x q hr hpc hq =>
    obtain ⟨-, rfl⟩ := CQueue.take_some hq
    refine h.worker_queue (by exact h.opened) (.inl (by rfl)) (fun u hu => .inl (by exact CQueue.goto_pc_ne _ hu _)) ?_
    rw [CQueue.goto_pc]
    rfl
  case getNextAvailRes hcl hq =>
    obtain ⟨-, rfl⟩ := CQueue.call_some hq
    exact h.client_goto rfl rfl rfl rfl rfl trivial fun r hr => h.results r (.inr (hr.resolve_left (by simp)))
  case peekedNone hcl hq =>
    obtain ⟨hp, -⟩ := CQueue.take_some hq
    have hcall := h.client
    rw [hcl, hp] at hcall
    exact hcall.elim
  case peeked hcl hq =>
    obtain ⟨hp, rfl⟩ := CQueue.take_some hq
    have hcall := h.client
    rw [hcl, hp] at hcall
    exact h.client_goto rfl rfl rfl rfl rfl ⟨rfl, hcall⟩ fun r hr => h.results r (.inr (hr.resolve_left (by simp)))
  case read p res q hcl hres hq =>
    obtain ⟨-, rfl⟩ := CQueue.call_some hq
    have hcall := h.client
    rw [hcl] at hcall
    obtain ⟨-, v, rest, hhead⟩ := hcall
    have hv : v = res := by
      have hmem : s.finishedResults.q.get p = some v := DList.get_eq.2 (by rw [hhead]; exact List.mem_cons_self)
      exact Option.some.inj (hmem.symm.trans hres)
    refine h.client_goto rfl rfl rfl rfl rfl ⟨p, v, rest, hhead, by rw [hv]; rfl⟩ fun r hr => ?_
    rcases hr with hr | hr
    · cases hr
      exact h.finished (p, res) (by rw [hhead, hv]; exact List.mem_cons_self)
    · exact h.results r (.inr hr)
  case dequeued r x q hcl hq =>
    obtain ⟨-, rfl⟩ := CQueue.take_some hq
    refine h.client_goto rfl rfl rfl rfl rfl rfl fun r' hr => ?_
    rcases hr with hr | hr
    · cases hr
    · rcases List.mem_append.1 hr with hr | hr
      · exact h.results r' (.inr hr)
      · cases List.mem_singleton.1 hr
        exact h.results r (.inl hcl)
  case clientQueue hcl hq => exact h.clientQueue hcl hq
  case spurious t q hq =>
    obtain ⟨k, hk, rfl⟩ := CQueue.spurious_some hq
    cases t with
    | some i => exact absurd hk ((h.worker i).not_waiting k)
    | none =>
      have hcall := h.client
      rw [hk] at hcall
      exact h.client_goto rfl rfl rfl rfl rfl hcall.woken h.results

theorem calls_init : Calls (State.init : State n) :=
  ⟨rfl, rfl, fun _ => rfl, by simp [State.init, CQueue.empty], by simp [State.init]⟩

end Calls

end K23Search.Core
