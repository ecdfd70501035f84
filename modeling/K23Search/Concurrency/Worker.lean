/-
`qs::worker` (include/qs/scheduler.hpp): a thread in the loop of `start`, and its queue of jobs. Two parties use the
queue: the thread that submits jobs and waits for them (`client`), and the worker's own (`worker`). A job stays at the
head of the queue while it runs, and is dequeued afterwards.

`submitted`, `started` and `finished` record the jobs given to `enqueue`, those on which the worker entered
`operator()`, and those from which it returned.

Results, for every order of the steps of the two parties:
- `Inv`: how far the worker is with the job at the head, and who may be blocked;
- `inv_step`, `inv_clientStep`, `inv_spurious`, `inv_enqueue`, `inv_waitDone`, `inv_clientReturn`: every step keeps it;
- `Inv.started_order`, `Inv.drained`: started jobs are the submitted ones, in order; with an empty queue all are
  finished;
- `Inv.deref`: the worker calls and deletes the job at the head of the queue, through no dangling pointer.
-/
import K23Search.Concurrency.ConcurrentQueue

namespace K23Search

open CQueue (Pc Call Ret wakeUp)

/-! ## Model -/

/-- the parties of a worker's queue -/
inductive Party where
  | client
  | worker
deriving DecidableEq, Repr

instance : Fintype Party := ⟨{.client, .worker}, fun t => by cases t <;> decide⟩

/-- where the thread is in the loop of `start` -/
inductive WorkerPc (J : Type) where
  | top
  | peeking
  /-- at `queue.is_closed()`, with what `peek` returned -/
  | peeked (p : Option ℕ)
  /-- about to call the job -/
  | ready (p : ℕ)
  | running (p : ℕ) (j : J)
  /-- about to dequeue the job that has run -/
  | ran
  | dequeuing
  /-- out of the loop -/
  | stopped
deriving DecidableEq, Repr

/-- inside a call -/
def WorkerPc.inCall {J : Type} : WorkerPc J → Bool
  | .peeking => true
  | .dequeuing => true
  | _ => false

structure Worker (J : Type) where
  queue : CQueue Party J
  pc : WorkerPc J
  submitted : List J
  started : List J
  finished : List J

namespace Worker

variable {J : Type}

def init : Worker J := ⟨CQueue.empty, .top, [], [], []⟩

/-- a step of the worker's thread. `(**job)()` and `delete *job` read the job through the pointer that `peek`
returned. -/
def step (w : Worker J) (woken : Party → Bool) : Option (Worker J) :=
  match w.pc with
  | .top => (w.queue.call .worker .peek).map fun queue => { w with queue := queue, pc := .peeking }
  | .peeking =>
    match w.queue.take .worker with
    | some (.ptr p, queue) => some { w with queue := queue, pc := .peeked p }
    | some _ => none
    | none => (w.queue.step .worker woken).map fun queue => { w with queue := queue }
  | .peeked p =>
    if w.queue.closed then some { w with pc := .stopped }
    else match p with
      | some p => some { w with pc := .ready p }
      | none => some { w with pc := .top }
  | .ready p => (w.queue.q.get p).map fun j => { w with pc := .running p j, started := w.started ++ [j] }
  | .running p j => (w.queue.q.get p).map fun _ => { w with pc := .ran, finished := w.finished ++ [j] }
  | .ran => (w.queue.call .worker .dequeue).map fun queue => { w with queue := queue, pc := .dequeuing }
  | .dequeuing =>
    match w.queue.take .worker with
    | some (_, queue) => some { w with queue := queue, pc := .top }
    | none => (w.queue.step .worker woken).map fun queue => { w with queue := queue }
  | .stopped => none

/-- `enqueue(j)` is called -/
def enqueue (w : Worker J) (j : J) : Option (Worker J) :=
  (w.queue.call .client (.enqueue j)).map fun queue => { w with queue := queue, submitted := w.submitted ++ [j] }

/-- `wait_done()` is called -/
def waitDone (w : Worker J) : Option (Worker J) :=
  (w.queue.call .client .waitEmpty).map fun queue => { w with queue := queue }

/-- the client's call returns -/
def clientReturn (w : Worker J) : Option (Worker J) :=
  (w.queue.take .client).map fun x => { w with queue := x.2 }

/-- a step of the client inside its call -/
def clientStep (w : Worker J) (woken : Party → Bool) : Option (Worker J) :=
  (w.queue.step .client woken).map fun queue => { w with queue := queue }

def spurious (w : Worker J) (t : Party) : Option (Worker J) :=
  (w.queue.spurious t).map fun queue => { w with queue := queue }

/-! ## The invariant -/

/-- what the client is doing with this worker -/
inductive Role where
  | out
  | submit
  | wait
deriving DecidableEq, Repr

/-- how far the worker is with the job at the head of its queue -/
inductive Phase (J : Type) where
  /-- it has not seen it -/
  | unseen
  /-- it has a pointer to it -/
  | seen (p : ℕ)
  | running (p : ℕ) (j : J)
  /-- it has run it, and not dequeued it yet -/
  | ran

/-- the phase, from where the thread is in its loop and in the call; `none`: the thread is never there -/
def phase : WorkerPc J → Pc J → Option (Phase J)
  | .top, .idle => some .unseen
  | .peeking, .lock .peek => some .unseen
  | .peeking, .locked .peek => some .unseen
  | .peeking, .waiting .peek => some .unseen
  | .peeking, .unlock false (.ptr (some p)) => some (.seen p)
  | .peeking, .done (.ptr (some p)) => some (.seen p)
  | .peeked (some p), .idle => some (.seen p)
  | .ready p, .idle => some (.seen p)
  | .running p j, .idle => some (.running p j)
  | .ran, .idle => some .ran
  | .dequeuing, .lock .dequeue => some .ran
  | .dequeuing, .locked .dequeue => some .ran
  | .dequeuing, .signalLocked (.item _ _) => some .unseen
  | .dequeuing, .unlock false (.item _ _) => some .unseen
  | .dequeuing, .done (.item _ _) => some .unseen
  | _, _ => none

/-- the queue in this phase: `todo` are the jobs in it that have not finished -/
def Phase.Ok : Phase J → List (ℕ × J) → List J → List J → List J → Prop
  | .unseen, nodes, started, finished, todo => started = finished ∧ todo = nodes.map Prod.snd
  | .seen p, nodes, started, finished, todo =>
    started = finished ∧ todo = nodes.map Prod.snd ∧ ∃ j rest, nodes = (p, j) :: rest
  | .running p j, nodes, started, finished, todo =>
    started = finished ++ [j] ∧ todo = nodes.map Prod.snd ∧ ∃ rest, nodes = (p, j) :: rest
  | .ran, nodes, started, finished, todo =>
    started = finished ∧ ∃ node rest, nodes = node :: rest ∧ todo = rest.map Prod.snd

theorem phase_idle {pc : WorkerPc J} {p : Pc J} {ph : Phase J} (hpc : pc.inCall = false) (h : phase pc p = some ph) :
    p = .idle := by
  unfold phase at h
  split at h <;> first | rfl | cases hpc | cases h

theorem phase_lock {pc : WorkerPc J} {k : Call J} {ph : Phase J} (h : phase pc (.lock k) = some ph) :
    phase pc (.locked k) = some ph := by
  cases pc <;> cases k <;> simp_all [phase]

theorem phase_locked {pc : WorkerPc J} {k : Call J} {ph : Phase J} (h : phase pc (.locked k) = some ph) :
    (pc = .peeking ∧ k = .peek ∧ ph = .unseen) ∨ (pc = .dequeuing ∧ k = .dequeue ∧ ph = .ran) := by
  cases pc <;> cases k <;> simp_all [phase]

theorem phase_waiting {pc : WorkerPc J} {k : Call J} {ph : Phase J} (h : phase pc (.waiting k) = some ph) :
    pc = .peeking ∧ k = .peek ∧ ph = .unseen := by
  cases pc <;> cases k <;> simp_all [phase]

theorem phase_signalLocked {pc : WorkerPc J} {r : Ret J} {ph : Phase J} (h : phase pc (.signalLocked r) = some ph) :
    phase pc (.unlock false r) = some ph := by
  cases pc <;> cases r <;> simp_all [phase]

theorem phase_unlock {pc : WorkerPc J} {sig : Bool} {r : Ret J} {ph : Phase J}
    (h : phase pc (.unlock sig r) = some ph) : sig = false ∧ phase pc (.done r) = some ph := by
  unfold phase at h
  split at h <;> simp_all [phase]

theorem phase_signal {pc : WorkerPc J} {r : Ret J} : phase pc (.signal r) = none := by
  unfold phase
  split <;> simp_all

/-- the job that the client has submitted and not appended yet -/
def pending : Pc J → List J
  | .lock (.enqueue j) => [j]
  | .locked (.enqueue j) => [j]
  | _ => []

theorem pending_locked (k : Call J) : pending (.locked k) = pending (.lock k) := by
  cases k <;> rfl

/-- where the client can be in its call. `wait_empty` returns with the queue empty. -/
def clientOk : Role → List (ℕ × J) → Pc J → Prop
  | .out, _, .idle => True
  | .submit, _, .lock (.enqueue _) => True
  | .submit, _, .locked (.enqueue _) => True
  | .submit, _, .unlock _ (.flag _) => True
  | .submit, _, .signal (.flag _) => True
  | .submit, _, .done (.flag _) => True
  | .wait, _, .lock .waitEmpty => True
  | .wait, _, .locked .waitEmpty => True
  | .wait, _, .waiting .waitEmpty => True
  | .wait, nodes, .unlock false .void => nodes = []
  | .wait, nodes, .done .void => nodes = []
  | _, _, _ => False

theorem clientOk_out {nodes : List (ℕ × J)} {p : Pc J} (h : clientOk .out nodes p) : p = .idle := by
  unfold clientOk at h
  split at h <;> simp_all

theorem clientOk_signals {role : Role} {nodes : List (ℕ × J)} {p : Pc J} (h : clientOk role nodes p)
    (hs : p.signals = true) : role = .submit := by
  unfold clientOk at h
  split at h <;> simp_all [Pc.signals]

theorem clientOk_waiting {role : Role} {nodes : List (ℕ × J)} {k : Call J} (h : clientOk role nodes (.waiting k)) :
    role = .wait ∧ k = .waitEmpty := by
  cases role <;> cases k <;> simp_all [clientOk]

/-- the invariant, over what it looks at: the queue's jobs, the points of the client and of the worker in their calls,
the worker's point in its loop, and the records -/
structure InvAt (role : Role) (nodes : List (ℕ × J)) (client worker : Pc J) (pc : WorkerPc J)
    (submitted started finished : List J) : Prop where
  client_ok : clientOk role nodes client
  work : ∃ ph todo, phase pc worker = some ph ∧ ph.Ok nodes started finished todo ∧
    submitted = finished ++ todo ++ pending client
  /-- a blocked worker has nothing to do, or a signal is on its way -/
  worker_waits : worker.isWaiting = true → nodes = [] ∨ client.signals = true
  /-- a blocked client has something to wait for, or a signal is on its way -/
  client_waits : client.isWaiting = true → nodes ≠ [] ∨ worker.signals = true

/-- the invariant of the queue and the loop -/
structure QInv (role : Role) (q : CQueue Party J) (pc : WorkerPc J) (submitted started finished : List J) : Prop where
  mutex : q.MutexInv
  opened : q.closed = false
  inv_at : InvAt role q.q.nodes (q.pc .client) (q.pc .worker) pc submitted started finished

def Inv (role : Role) (w : Worker J) : Prop := QInv role w.queue w.pc w.submitted w.started w.finished

theorem inv_init : Inv .out (init : Worker J) where
  mutex t := by simp [init, CQueue.empty, CQueue.Pc.holds]
  opened := rfl
  inv_at := ⟨trivial, ⟨.unseen, [], rfl, ⟨rfl, rfl⟩, rfl⟩, by simp [init, CQueue.empty, Pc.isWaiting],
    by simp [init, CQueue.empty, Pc.isWaiting]⟩

section InvAt

variable {role : Role} {nodes : List (ℕ × J)} {client worker : Pc J} {pc : WorkerPc J}
  {submitted started finished : List J}

/-! ### Steps of the worker -/

theorem InvAt.move_worker {worker' : Pc J} {pc' : WorkerPc J}
    (h : InvAt role nodes client worker pc submitted started finished)
    (hph : ∀ ph, phase pc worker = some ph → phase pc' worker' = some ph) (hw : worker'.isWaiting = false)
    (hs : client.isWaiting = true → worker.signals = true → worker'.signals = true) :
    InvAt role nodes client worker' pc' submitted started finished := by
  obtain ⟨ph, todo, hphase, hok, hsub⟩ := h.work
  refine ⟨h.client_ok, ⟨ph, todo, hph ph hphase, hok, hsub⟩, by simp [hw], fun hc => ?_⟩
  exact (h.client_waits hc).imp_right (hs hc)

/-- `peek` finds the queue empty -/
theorem InvAt.peek_blocks (h : InvAt role [] client (.locked .peek) .peeking submitted started finished) :
    InvAt role [] client (.waiting .peek) .peeking submitted started finished := by
  refine ⟨h.client_ok, h.work, fun _ => .inl rfl, fun hc => ?_⟩
  rcases h.client_waits hc with hn | hs
  · exact .inl hn
  · cases hs

/-- `peek` finds a job -/
theorem InvAt.peek_finds {p : ℕ} {j : J} {rest : List (ℕ × J)}
    (h : InvAt role ((p, j) :: rest) client (.locked .peek) .peeking submitted started finished) :
    InvAt role ((p, j) :: rest) client (.unlock false (.ptr (some p))) .peeking submitted started finished := by
  obtain ⟨ph, todo, hphase, hok, hsub⟩ := h.work
  cases hphase
  exact ⟨h.client_ok, ⟨.seen p, todo, rfl, ⟨hok.1, hok.2, j, rest, rfl⟩, hsub⟩, nofun, fun _ => .inl (by simp)⟩

/-- the worker calls the job -/
theorem InvAt.start {p : ℕ} {j : J} (h : InvAt role nodes client .idle (.ready p) submitted started finished)
    (hj : (p, j) ∈ nodes) (hd : (nodes.map Prod.fst).Nodup) :
    InvAt role nodes client .idle (.running p j) submitted (started ++ [j]) finished := by
  obtain ⟨ph, todo, hphase, hok, hsub⟩ := h.work
  cases hphase
  obtain ⟨hstart, htodo, i, rest, hnodes⟩ := hok
  have hij : j = i := by
    rw [hnodes] at hj hd
    rcases List.mem_cons.1 hj with hj | hj
    · exact (Prod.mk.inj hj).2
    · exact absurd (List.mem_map_of_mem hj) (List.nodup_cons.1 hd).1
  subst hij
  exact ⟨h.client_ok, ⟨.running p j, todo, rfl, ⟨by rw [hstart], htodo, rest, hnodes⟩, hsub⟩, nofun, h.client_waits⟩

/-- the job returns -/
theorem InvAt.finish {p : ℕ} {j : J} (h : InvAt role nodes client .idle (.running p j) submitted started finished) :
    InvAt role nodes client .idle .ran submitted started (finished ++ [j]) := by
  obtain ⟨ph, todo, hphase, hok, hsub⟩ := h.work
  cases hphase
  obtain ⟨hstart, htodo, rest, hnodes⟩ := hok
  refine ⟨h.client_ok, ⟨.ran, rest.map Prod.snd, rfl, ⟨hstart, (p, j), rest, hnodes, rfl⟩, ?_⟩, nofun, h.client_waits⟩
  rw [hsub, htodo, hnodes]
  simp

/-- `dequeue` takes the job out -/
theorem InvAt.remove {p : ℕ} {j : J} {rest : List (ℕ × J)} {x : Option J} {e : Bool}
    (h : InvAt role ((p, j) :: rest) client (.locked .dequeue) .dequeuing submitted started finished) :
    InvAt role rest client (.signalLocked (.item x e)) .dequeuing submitted started finished := by
  obtain ⟨ph, todo, hphase, hok, hsub⟩ := h.work
  cases hphase
  obtain ⟨hstart, node, rest', hnodes, htodo⟩ := hok
  cases hnodes
  refine ⟨?_, ⟨.unseen, todo, rfl, ⟨hstart, htodo⟩, hsub⟩, nofun, fun _ => .inr rfl⟩
  have hc := h.client_ok
  unfold clientOk at hc ⊢
  split at hc <;> trivial

/-! ### Steps of the client -/

theorem clientOk_lock {k : Call J} (h : clientOk role nodes (.lock k)) : clientOk role nodes (.locked k) := by
  cases role <;> cases k <;> simp_all [clientOk]

theorem clientOk_locked {k : Call J} (h : clientOk role nodes (.locked k)) :
    (role = .submit ∧ ∃ j, k = .enqueue j) ∨ (role = .wait ∧ k = .waitEmpty) := by
  cases role <;> cases k <;> simp_all [clientOk]

theorem clientOk_signalLocked {r : Ret J} : ¬ clientOk role nodes (.signalLocked r) := by
  cases role <;> simp [clientOk]

theorem clientOk_unlock {sig : Bool} {r : Ret J} (h : clientOk role nodes (.unlock sig r)) :
    clientOk role nodes (if sig then .signal r else .done r) := by
  cases role <;> cases sig <;> cases r <;> simp_all [clientOk]

theorem clientOk_signal {r : Ret J} (h : clientOk role nodes (.signal r)) : clientOk role nodes (.done r) := by
  cases role <;> cases r <;> simp_all [clientOk]

theorem InvAt.move_client {role' : Role} {client' : Pc J}
    (h : InvAt role nodes client worker pc submitted started finished) (hok : clientOk role' nodes client')
    (hp : pending client' = pending client) (hw : client'.isWaiting = true → nodes ≠ [])
    (hs : worker.isWaiting = true → client.signals = true → client'.signals = true) :
    InvAt role' nodes client' worker pc submitted started finished := by
  obtain ⟨ph, todo, hphase, hph, hsub⟩ := h.work
  exact ⟨hok, ⟨ph, todo, hphase, hph, by rw [hsub, hp]⟩, fun hc => (h.worker_waits hc).imp_right (hs hc),
    fun hc => .inl (hw hc)⟩

/-- `submit_job` -/
theorem InvAt.submit {j : J} (h : InvAt .out nodes .idle worker pc submitted started finished) :
    InvAt .submit nodes (.lock (.enqueue j)) worker pc (submitted ++ [j]) started finished := by
  obtain ⟨ph, todo, hphase, hph, hsub⟩ := h.work
  refine ⟨trivial, ⟨ph, todo, hphase, hph, ?_⟩, fun hc => ?_, nofun⟩
  · rw [hsub]
    simp [pending]
  · rcases h.worker_waits hc with hn | hs
    · exact .inl hn
    · cases hs

/-- `enqueue` appends the job -/
theorem InvAt.append {j : J} {a : ℕ}
    (h : InvAt .submit nodes (.locked (.enqueue j)) worker pc submitted started finished) :
    InvAt .submit (nodes ++ [(a, j)]) (.unlock nodes.isEmpty (.flag nodes.isEmpty)) worker pc submitted started
      finished := by
  obtain ⟨ph, todo, hphase, hph, hsub⟩ := h.work
  refine ⟨trivial, ⟨ph, todo ++ [j], hphase, ?_, ?_⟩, fun hc => ?_, nofun⟩
  · cases ph with
    | unseen => exact ⟨hph.1, by rw [hph.2]; simp⟩
    | seen p =>
      obtain ⟨hstart, htodo, i, rest, rfl⟩ := hph
      exact ⟨hstart, by rw [htodo]; simp, i, rest ++ [(a, j)], rfl⟩
    | running p i =>
      obtain ⟨hstart, htodo, rest, rfl⟩ := hph
      exact ⟨hstart, by rw [htodo]; simp, rest ++ [(a, j)], rfl⟩
    | ran =>
      obtain ⟨hstart, node, rest, rfl, htodo⟩ := hph
      exact ⟨hstart, node, rest ++ [(a, j)], rfl, by rw [htodo]; simp⟩
  · rw [hsub]
    simp [pending]
  · rcases h.worker_waits hc with hn | hs
    · subst hn
      exact .inr rfl
    · cases hs

/-! ### Wake-ups -/

/-- the point of a thread that is woken -/
def relock : Pc J → Pc J
  | .waiting k => .lock k
  | p => p

theorem wakeUp_eq (woken : Party → Bool) (pcs : Party → Pc J) (u : Party) :
    wakeUp woken pcs u = if woken u then relock (pcs u) else pcs u := by
  cases h : pcs u <;> simp [wakeUp, relock, h]

theorem relock_isWaiting (p : Pc J) : (relock p).isWaiting = false := by
  cases p <;> rfl

theorem relock_eq {p : Pc J} (h : p.isWaiting = false) : relock p = p := by
  cases p <;> first | rfl | cases h

theorem InvAt.wake_worker (h : InvAt role nodes client worker pc submitted started finished) :
    InvAt role nodes client (relock worker) pc submitted started finished := by
  cases worker with
  | waiting k =>
    refine h.move_worker (fun ph hph => ?_) rfl fun _ => nofun
    obtain ⟨rfl, rfl, rfl⟩ := phase_waiting hph
    rfl
  | _ => exact h

theorem InvAt.wake_client (h : InvAt role nodes client worker pc submitted started finished) :
    InvAt role nodes (relock client) worker pc submitted started finished := by
  cases client with
  | waiting k =>
    obtain ⟨rfl, rfl⟩ := clientOk_waiting h.client_ok
    exact h.move_client trivial rfl nofun fun _ => nofun
  | _ => exact h

/-- any set of threads may be woken -/
theorem InvAt.wakeUp {pcs : Party → Pc J} (woken : Party → Bool)
    (h : InvAt role nodes (pcs .client) (pcs .worker) pc submitted started finished) :
    InvAt role nodes (wakeUp woken pcs .client) (wakeUp woken pcs .worker) pc submitted started finished := by
  rw [wakeUp_eq, wakeUp_eq]
  split <;> split
  · exact h.wake_client.wake_worker
  · exact h.wake_client
  · exact h.wake_worker
  · exact h

end InvAt

/-! ### Steps of the queue -/

section Queue

variable {role : Role} {q q' : CQueue Party J} {pc : WorkerPc J} {submitted started finished : List J}
  {woken : Party → Bool}

@[simp] theorem goto_worker (q : CQueue Party J) (p : Pc J) : (q.goto .worker p).pc .client = q.pc .client :=
  q.goto_pc_ne (by decide) p

@[simp] theorem goto_client (q : CQueue Party J) (p : Pc J) : (q.goto .client p).pc .worker = q.pc .worker :=
  q.goto_pc_ne (by decide) p

theorem signalled {t u : Party} (htu : ∀ x, x = t ∨ x = u) (hok : q.SignalOk woken) (ht : (q.pc t).isWaiting = false) :
    (wakeUp woken q.pc u).isWaiting = false := by
  rw [wakeUp_eq]
  cases hu : (q.pc u).isWaiting with
  | false =>
    split
    · rw [relock_eq hu, hu]
    · exact hu
  | true =>
    obtain ⟨x, hx, hw⟩ := hok ⟨u, hu⟩
    rcases htu x with rfl | rfl
    · rw [ht] at hx
      cases hx
    · rw [if_pos hw, relock_isWaiting]

/-- `peek`, behind the lock -/
theorem QInv.worker_peek (h : QInv role q .peeking submitted started finished)
    (hpc : q.pc .worker = .locked .peek) :
    InvAt role (q.body .worker .peek).q.nodes ((q.body .worker .peek).pc .client) ((q.body .worker .peek).pc .worker)
      .peeking submitted started finished ∧ (q.body .worker .peek).closed = false := by
  have hinv := h.inv_at
  rw [hpc] at hinv
  cases hnodes : q.q.nodes with
  | nil =>
    rw [hnodes] at hinv
    rw [CQueue.peek_empty h.opened hnodes]
    refine ⟨?_, h.opened⟩
    simp only [CQueue.block, goto_worker, CQueue.goto_pc]
    rw [show (q.goto .worker (.waiting .peek)).q.nodes = [] from hnodes]
    exact hinv.peek_blocks
  | cons node rest =>
    obtain ⟨p, j⟩ := node
    rw [hnodes] at hinv
    rw [CQueue.peek_cons hnodes]
    refine ⟨?_, h.opened⟩
    simp only [goto_worker, CQueue.goto_pc]
    rw [show (q.goto .worker (.unlock false (.ptr _))).q.nodes = _ from hnodes]
    exact hinv.peek_finds

/-- `dequeue`, behind the lock; the job that has run is at the head -/
theorem QInv.worker_dequeue (h : QInv role q .dequeuing submitted started finished)
    (hpc : q.pc .worker = .locked .dequeue) :
    InvAt role (q.body .worker .dequeue).q.nodes ((q.body .worker .dequeue).pc .client)
      ((q.body .worker .dequeue).pc .worker) .dequeuing submitted started finished ∧
    (q.body .worker .dequeue).closed = false := by
  have hinv := h.inv_at
  rw [hpc] at hinv
  obtain ⟨⟨p, j⟩, rest, hnodes⟩ : ∃ node rest, q.q.nodes = node :: rest := by
    obtain ⟨ph, todo, hphase, hok, -⟩ := hinv.work
    cases hphase
    obtain ⟨-, node, rest, hnodes, -⟩ := hok
    exact ⟨node, rest, hnodes⟩
  rw [hnodes] at hinv
  obtain ⟨d, e, rfl, hbody⟩ := CQueue.dequeue_cons (t := .worker) hnodes
  rw [hbody]
  refine ⟨?_, h.opened⟩
  rw [goto_worker, CQueue.goto_pc]
  exact hinv.remove

theorem QInv.worker_step (h : QInv role q pc submitted started finished) (hs : q.step .worker woken = some q') :
    QInv role q' pc submitted started finished := by
  have hmutex := CQueue.mutex_step h.mutex hs
  have hinv := h.inv_at
  obtain ⟨ph₀, -, hph₀, -⟩ := hinv.work
  rcases CQueue.step_cases hs with ⟨k, hpc, -, rfl⟩ | ⟨k, hpc, rfl⟩ | ⟨r, hpc, hok, rfl⟩ | ⟨sig, r, hpc, rfl⟩ |
    ⟨r, hpc, -, rfl⟩
  · refine ⟨hmutex, h.opened, ?_⟩
    rw [hpc] at hinv
    simp only [goto_worker, CQueue.goto_pc]
    exact hinv.move_worker (fun ph => phase_lock) rfl fun _ => nofun
  · rw [hpc] at hph₀
    rcases phase_locked hph₀ with ⟨rfl, rfl, -⟩ | ⟨rfl, rfl, -⟩
    · obtain ⟨hat, hclosed⟩ := h.worker_peek hpc
      exact ⟨hmutex, hclosed, hat⟩
    · obtain ⟨hat, hclosed⟩ := h.worker_dequeue hpc
      exact ⟨hmutex, hclosed, hat⟩
  · -- the signal reaches the client, if it waits
    have hclient := signalled (t := .worker) (u := .client) (fun x => by cases x <;> simp) hok (by rw [hpc]; rfl)
    refine ⟨hmutex, h.opened, ?_⟩
    have hwoken := hinv.wakeUp woken
    have hself : wakeUp woken q.pc .worker = q.pc .worker := CQueue.wakeUp_of_not_waiting (by rw [hpc]; rfl)
    rw [hself, hpc] at hwoken
    simp only [goto_worker, CQueue.goto_pc]
    exact hwoken.move_worker (fun ph => phase_signalLocked) rfl fun hc => by rw [hclient] at hc; cases hc
  · rw [hpc] at hph₀ hinv
    obtain ⟨rfl, -⟩ := phase_unlock hph₀
    refine ⟨hmutex, h.opened, ?_⟩
    simp only [goto_worker, CQueue.goto_pc]
    exact hinv.move_worker (fun ph hph => (phase_unlock hph).2) rfl fun _ => nofun
  · rw [hpc, phase_signal] at hph₀
    cases hph₀

theorem QInv.client_step (h : QInv role q pc submitted started finished) (hs : q.step .client woken = some q') :
    QInv role q' pc submitted started finished := by
  have hmutex := CQueue.mutex_step h.mutex hs
  have hinv := h.inv_at
  have hok₀ := hinv.client_ok
  rcases CQueue.step_cases hs with ⟨k, hpc, -, rfl⟩ | ⟨k, hpc, rfl⟩ | ⟨r, hpc, -, rfl⟩ | ⟨sig, r, hpc, rfl⟩ |
    ⟨r, hpc, hok, rfl⟩
  · refine ⟨hmutex, h.opened, ?_⟩
    rw [hpc] at hinv hok₀
    simp only [goto_client, CQueue.goto_pc]
    exact hinv.move_client (clientOk_lock hok₀) (pending_locked k) (by simp [Pc.isWaiting]) (by simp [Pc.signals])
  · rw [hpc] at hok₀ hinv
    rcases clientOk_locked hok₀ with ⟨rfl, j, rfl⟩ | ⟨rfl, rfl⟩
    · refine ⟨hmutex, h.opened, ?_⟩
      simp only [CQueue.body, goto_client, CQueue.goto_pc]
      have hnodes : (CQueue.goto { q with q := q.q.append j } Party.client
          (.unlock q.q.isEmpty (.flag q.q.isEmpty))).q.nodes = q.q.nodes ++ [(q.q.fresh, j)] := q.q.nodes_append j
      rw [hnodes, q.q.isEmpty_eq]
      exact hinv.append
    · simp only [CQueue.body] at hmutex ⊢
      cases hempty : q.q.isEmpty with
      | true =>
        have hnodes := (DList.isEmpty_iff _).1 hempty
        simp only [hempty, Bool.not_true, Bool.false_eq_true, if_false] at hmutex ⊢
        refine ⟨hmutex, h.opened, ?_⟩
        simp only [goto_client, CQueue.goto_pc]
        exact hinv.move_client hnodes rfl (by simp [Pc.isWaiting]) (by simp [Pc.signals])
      | false =>
        have hnodes := (DList.isEmpty_eq_false _).1 hempty
        simp only [hempty, Bool.not_false, if_true] at hmutex ⊢
        refine ⟨hmutex, h.opened, ?_⟩
        simp only [CQueue.block, goto_client, CQueue.goto_pc]
        exact hinv.move_client trivial rfl (fun _ => hnodes) (by simp [Pc.signals])
  · rw [hpc] at hok₀
    exact absurd hok₀ clientOk_signalLocked
  · rw [hpc] at hok₀ hinv
    refine ⟨hmutex, h.opened, ?_⟩
    simp only [goto_client, CQueue.goto_pc]
    refine hinv.move_client (clientOk_unlock hok₀) ?_ ?_ ?_
    · cases sig <;> rfl
    · cases sig <;> simp [Pc.isWaiting]
    · cases sig <;> exact fun _ hsig => hsig
  · -- the signal reaches the worker, if it waits
    have hworker := signalled (t := .client) (u := .worker) (fun x => by cases x <;> simp) hok (by rw [hpc]; rfl)
    refine ⟨hmutex, h.opened, ?_⟩
    have hwoken := hinv.wakeUp woken
    have hself : wakeUp woken q.pc .client = q.pc .client := CQueue.wakeUp_of_not_waiting (by rw [hpc]; rfl)
    rw [hself, hpc] at hwoken
    rw [hpc] at hok₀
    simp only [goto_client, CQueue.goto_pc]
    exact hwoken.move_client (clientOk_signal hok₀) rfl (by simp [Pc.isWaiting]) fun hw => by rw [hworker] at hw; cases hw

/-- the worker calls, or returns from a call -/
theorem QInv.worker_goto {p : Pc J} {pc' : WorkerPc J} (h : QInv role q pc submitted started finished)
    (hmutex : (q.goto .worker p).MutexInv) (hph : ∀ ph, phase pc (q.pc .worker) = some ph → phase pc' p = some ph)
    (hw : p.isWaiting = false) (hs : (q.pc .worker).signals = false) :
    QInv role (q.goto .worker p) pc' submitted started finished := by
  refine ⟨hmutex, h.opened, ?_⟩
  simp only [goto_worker, CQueue.goto_pc]
  exact h.inv_at.move_worker hph hw fun _ hsig => by rw [hs] at hsig; cases hsig

theorem QInv.spurious (h : QInv role q pc submitted started finished) {t : Party} (hs : q.spurious t = some q') :
    QInv role q' pc submitted started finished := by
  have hmutex := CQueue.mutex_spurious h.mutex hs
  obtain ⟨k, hpc, rfl⟩ := CQueue.spurious_some hs
  refine ⟨hmutex, h.opened, ?_⟩
  have hinv := h.inv_at
  cases t with
  | client =>
    rw [hpc] at hinv
    simp only [goto_client, CQueue.goto_pc]
    exact hinv.wake_client
  | worker =>
    rw [hpc] at hinv
    simp only [goto_worker, CQueue.goto_pc]
    exact hinv.wake_worker

end Queue

/-! ## The steps of a worker and its client -/

section Steps

variable {role : Role} {w w' : Worker J} {woken : Party → Bool}

theorem inv_callStep (h : Inv role w) (hs : (w.queue.step .worker woken).map (fun queue => { w with queue := queue }) =
    some w') : Inv role w' := by
  obtain ⟨q, hq, rfl⟩ := Option.map_eq_some_iff.1 hs
  exact QInv.worker_step h hq

theorem inv_worker_call (h : Inv role w) {k : Call J} {pc : WorkerPc J}
    (hph : ∀ ph, phase w.pc .idle = some ph → phase pc (.lock k) = some ph)
    (hs : (w.queue.call .worker k).map (fun queue => { w with queue := queue, pc := pc }) = some w') :
    Inv role w' := by
  obtain ⟨q, hq, rfl⟩ := Option.map_eq_some_iff.1 hs
  have hmutex := CQueue.mutex_call h.mutex hq
  obtain ⟨hpc, rfl⟩ := CQueue.call_some hq
  exact QInv.worker_goto h hmutex (by rwa [hpc]) rfl (by rw [hpc]; rfl)

theorem inv_worker_take (h : Inv role w) {r : Ret J} {q : CQueue Party J} {pc : WorkerPc J}
    (hph : ∀ ph, phase w.pc (.done r) = some ph → phase pc .idle = some ph)
    (hs : w.queue.take .worker = some (r, q)) : Inv role { w with queue := q, pc := pc } := by
  have hmutex := CQueue.mutex_take h.mutex hs
  obtain ⟨hpc, rfl⟩ := CQueue.take_some hs
  exact QInv.worker_goto h hmutex (by rwa [hpc]) rfl (by rw [hpc]; rfl)

/-- a worker out of its calls is idle in the queue -/
theorem Inv.idle (h : Inv role w) (hpc : w.pc.inCall = false) : w.queue.pc .worker = .idle := by
  obtain ⟨ph, -, hph, -⟩ := h.inv_at.work
  exact phase_idle hpc hph

/-- **Worker step.** Every step of the worker's thread keeps the invariant. -/
theorem inv_step (h : Inv role w) (hs : w.step woken = some w') : Inv role w' := by
  have hinv := h.inv_at
  unfold step at hs
  split at hs
  · next hpc => exact inv_worker_call h (by rw [hpc]; exact fun ph => id) hs
  · next hpc =>
    split at hs
    · next p q hq =>
      cases hs
      refine inv_worker_take h (fun ph hph => ?_) hq
      rw [hpc] at hph
      cases p with
      | none => cases hph
      | some p => exact hph
    · cases hs
    · exact inv_callStep h hs
  · next p hpc =>
    have hidle := h.idle (by rw [hpc]; rfl)
    rw [hpc, hidle] at hinv
    rw [if_neg (by simp [h.opened])] at hs
    split at hs
    · cases hs
      refine ⟨h.mutex, h.opened, ?_⟩
      simp only [hidle]
      exact hinv.move_worker (fun ph => id) rfl fun _ => nofun
    · obtain ⟨ph, -, hph, -⟩ := hinv.work
      cases hph
  · next p hpc =>
    have hidle := h.idle (by rw [hpc]; rfl)
    rw [hpc, hidle] at hinv
    obtain ⟨j, hj, rfl⟩ := Option.map_eq_some_iff.1 hs
    refine ⟨h.mutex, h.opened, ?_⟩
    simp only [hidle]
    exact hinv.start (DList.get_eq.1 hj) w.queue.q.nodup
  · next p j hpc =>
    have hidle := h.idle (by rw [hpc]; rfl)
    rw [hpc, hidle] at hinv
    obtain ⟨-, -, rfl⟩ := Option.map_eq_some_iff.1 hs
    refine ⟨h.mutex, h.opened, ?_⟩
    simp only [hidle]
    exact hinv.finish
  · next hpc => exact inv_worker_call h (by rw [hpc]; exact fun ph => id) hs
  · next hpc =>
    split at hs
    · next r q hq =>
      cases hs
      refine inv_worker_take h (fun ph hph => ?_) hq
      rw [hpc] at hph
      cases r <;> cases hph
      rfl
    · exact inv_callStep h hs
  · cases hs

/-- a step of the client inside its call keeps the invariant -/
theorem inv_clientStep (h : Inv role w) (hs : w.clientStep woken = some w') : Inv role w' := by
  obtain ⟨q, hq, rfl⟩ := Option.map_eq_some_iff.1 hs
  exact QInv.client_step h hq

theorem inv_spurious (h : Inv role w) {t : Party} (hs : w.spurious t = some w') : Inv role w' := by
  obtain ⟨q, hq, rfl⟩ := Option.map_eq_some_iff.1 hs
  exact QInv.spurious h hq

theorem inv_enqueue (h : Inv .out w) {j : J} (hs : w.enqueue j = some w') : Inv .submit w' := by
  obtain ⟨q, hq, rfl⟩ := Option.map_eq_some_iff.1 hs
  have hmutex := CQueue.mutex_call h.mutex hq
  have hinv := h.inv_at
  obtain ⟨hpc, rfl⟩ := CQueue.call_some hq
  refine ⟨hmutex, h.opened, ?_⟩
  rw [hpc] at hinv
  simp only [goto_client, CQueue.goto_pc]
  exact hinv.submit

theorem inv_waitDone (h : Inv .out w) (hs : w.waitDone = some w') : Inv .wait w' := by
  obtain ⟨q, hq, rfl⟩ := Option.map_eq_some_iff.1 hs
  have hmutex := CQueue.mutex_call h.mutex hq
  have hinv := h.inv_at
  obtain ⟨hpc, rfl⟩ := CQueue.call_some hq
  refine ⟨hmutex, h.opened, ?_⟩
  rw [hpc] at hinv
  simp only [goto_client, CQueue.goto_pc]
  exact hinv.move_client trivial rfl nofun fun _ => nofun

theorem inv_clientReturn (h : Inv role w) (hs : w.clientReturn = some w') :
    Inv .out w' ∧ (role = .wait → w'.queue.q.nodes = []) := by
  obtain ⟨⟨r, q⟩, hq, rfl⟩ := Option.map_eq_some_iff.1 hs
  have hmutex := CQueue.mutex_take h.mutex hq
  have hinv := h.inv_at
  obtain ⟨hpc, rfl⟩ := CQueue.take_some hq
  rw [hpc] at hinv
  refine ⟨⟨hmutex, h.opened, ?_⟩, fun hrole => ?_⟩
  · simp only [goto_client, CQueue.goto_pc]
    exact hinv.move_client trivial rfl nofun fun _ => nofun
  · have hok := hinv.client_ok
    subst hrole
    cases r <;> first | exact hok | cases hok

/-! ## What the invariant says -/

theorem Inv.started_order (h : Inv role w) : w.finished <+: w.started ∧ w.started <+: w.submitted := by
  obtain ⟨ph, todo, -, hok, hsub⟩ := h.inv_at.work
  cases ph with
  | running p j =>
    obtain ⟨hstart, htodo, rest, hnodes⟩ := hok
    refine ⟨⟨[j], hstart.symm⟩, ⟨rest.map Prod.snd ++ pending (w.queue.pc .client), ?_⟩⟩
    rw [hsub, hstart, htodo, hnodes]
    simp
  | _ =>
    rw [hok.1]
    exact ⟨List.prefix_refl _, todo ++ pending (w.queue.pc .client), by rw [hsub, List.append_assoc]⟩

theorem Inv.finished_order (h : Inv role w) : w.finished <+: w.submitted := h.started_order.1.trans h.started_order.2

/-- with nothing in the queue, every job has finished -/
theorem Inv.drained (h : Inv .out w) (hnodes : w.queue.q.nodes = []) : w.finished = w.submitted := by
  obtain ⟨ph, todo, -, hok, hsub⟩ := h.inv_at.work
  have hidle : pending (w.queue.pc .client) = [] := by
    rw [clientOk_out h.inv_at.client_ok]
    rfl
  rw [hnodes] at hok
  have htodo : todo = [] := by
    cases ph with
    | unseen => exact hok.2
    | seen p => exact hok.2.1
    | running p j => exact hok.2.1
    | ran =>
      obtain ⟨-, node, rest, hcons, -⟩ := hok
      cases hcons
  rw [hsub, htodo, hidle]
  simp

/-- unless the client is submitting, a blocked worker has nothing to do -/
theorem Inv.idle_of_blocked (h : Inv role w) (hrole : role ≠ .submit) (hw : (w.queue.pc .worker).isWaiting = true) :
    w.queue.q.nodes = [] := by
  exact (h.inv_at.worker_waits hw).resolve_right fun hsig => hrole (clientOk_signals h.inv_at.client_ok hsig)

/-- what a step of the worker's thread does to the records -/
theorem step_effect (hs : w.step woken = some w') : w'.submitted = w.submitted ∧
    ((w'.started = w.started ∧ w'.finished = w.finished) ∨
     (∃ p j, w.pc = .ready p ∧ w'.started = w.started ++ [j] ∧ w'.finished = w.finished) ∨
     (∃ p j, w.pc = .running p j ∧ w'.started = w.started ∧ w'.finished = w.finished ++ [j])) := by
  have hquiet : ∀ (o : Option (CQueue Party J)) (pc : WorkerPc J),
      o.map (fun queue => { w with queue := queue, pc := pc }) = some w' →
      w'.submitted = w.submitted ∧ w'.started = w.started ∧ w'.finished = w.finished := by
    intro o pc ho
    obtain ⟨q, -, rfl⟩ := Option.map_eq_some_iff.1 ho
    exact ⟨rfl, rfl, rfl⟩
  unfold step at hs
  split at hs
  · exact (hquiet _ _ hs).imp_right .inl
  · split at hs
    · cases hs; exact ⟨rfl, .inl ⟨rfl, rfl⟩⟩
    · cases hs
    · exact (hquiet _ _ hs).imp_right .inl
  · split at hs
    · cases hs; exact ⟨rfl, .inl ⟨rfl, rfl⟩⟩
    · split at hs <;> cases hs <;> exact ⟨rfl, .inl ⟨rfl, rfl⟩⟩
  · next p hpc =>
    obtain ⟨j, -, rfl⟩ := Option.map_eq_some_iff.1 hs
    exact ⟨rfl, .inr (.inl ⟨p, j, hpc, rfl, rfl⟩)⟩
  · next p j hpc =>
    obtain ⟨-, -, rfl⟩ := Option.map_eq_some_iff.1 hs
    exact ⟨rfl, .inr (.inr ⟨p, j, hpc, rfl, rfl⟩)⟩
  · exact (hquiet _ _ hs).imp_right .inl
  · split at hs
    · cases hs; exact ⟨rfl, .inl ⟨rfl, rfl⟩⟩
    · exact (hquiet _ _ hs).imp_right .inl
  · cases hs

theorem clientReturn_records (hs : w.clientReturn = some w') :
    w'.submitted = w.submitted ∧ w'.started = w.started ∧ w'.finished = w.finished := by
  obtain ⟨x, -, rfl⟩ := Option.map_eq_some_iff.1 hs
  exact ⟨rfl, rfl, rfl⟩

theorem waitDone_records (hs : w.waitDone = some w') :
    w'.submitted = w.submitted ∧ w'.started = w.started ∧ w'.finished = w.finished := by
  obtain ⟨q, -, rfl⟩ := Option.map_eq_some_iff.1 hs
  exact ⟨rfl, rfl, rfl⟩

theorem clientStep_records (hs : w.clientStep woken = some w') :
    w'.submitted = w.submitted ∧ w'.started = w.started ∧ w'.finished = w.finished := by
  obtain ⟨q, -, rfl⟩ := Option.map_eq_some_iff.1 hs
  exact ⟨rfl, rfl, rfl⟩

theorem spurious_records {t : Party} (hs : w.spurious t = some w') :
    w'.submitted = w.submitted ∧ w'.started = w.started ∧ w'.finished = w.finished := by
  obtain ⟨q, -, rfl⟩ := Option.map_eq_some_iff.1 hs
  exact ⟨rfl, rfl, rfl⟩

theorem enqueue_records {j : J} (hs : w.enqueue j = some w') :
    w'.submitted = w.submitted ++ [j] ∧ w'.started = w.started ∧ w'.finished = w.finished := by
  obtain ⟨q, -, rfl⟩ := Option.map_eq_some_iff.1 hs
  exact ⟨rfl, rfl, rfl⟩

/-- a worker about to call a job has finished the earlier ones -/
theorem Inv.at_ready (h : Inv role w) {p : ℕ} (hpc : w.pc = .ready p) :
    w.started = w.finished ∧ w.finished.length < w.submitted.length := by
  obtain ⟨ph, todo, hph, hok, hsub⟩ := h.inv_at.work
  rw [hpc, h.idle (by rw [hpc]; rfl)] at hph
  cases hph
  obtain ⟨hstart, htodo, j, rest, hnodes⟩ := hok
  refine ⟨hstart, ?_⟩
  rw [hsub, htodo, hnodes]
  simp

theorem Inv.at_running (h : Inv role w) {p : ℕ} {j : J} (hpc : w.pc = .running p j) :
    w.started = w.finished ++ [j] := by
  obtain ⟨ph, todo, hph, hok, -⟩ := h.inv_at.work
  rw [hpc, h.idle (by rw [hpc]; rfl)] at hph
  cases hph
  exact hok.1

/-- the pointers through which the worker calls and deletes a job are those of the job at the head of its queue -/
theorem Inv.deref (h : Inv role w) :
    (∀ p, w.pc = .ready p → ∃ j, w.queue.q.get p = some j) ∧
    (∀ p j, w.pc = .running p j → w.queue.q.get p = some j) := by
  obtain ⟨ph, todo, hph, hok, -⟩ := h.inv_at.work
  constructor
  · intro p hpc
    rw [hpc, h.idle (by rw [hpc]; rfl)] at hph
    cases hph
    obtain ⟨-, -, j, rest, hnodes⟩ := hok
    exact ⟨j, DList.get_eq.2 (by rw [hnodes]; exact List.mem_cons_self)⟩
  · intro p j hpc
    rw [hpc, h.idle (by rw [hpc]; rfl)] at hph
    cases hph
    obtain ⟨-, -, rest, hnodes⟩ := hok
    exact DList.get_eq.2 (by rw [hnodes]; exact List.mem_cons_self)

end Steps

end Worker

end K23Search
