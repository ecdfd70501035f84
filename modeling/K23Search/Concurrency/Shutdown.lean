/-
`qs::worker::stop` (include/qs/scheduler.hpp): the queue of a worker is closed while its thread runs. The thread looks
at `is_closed` between `peek` and the call of the job, and not at all while a job runs.

`Closing` is the invariant of a worker from the call of `stop` on, `Closed` that of one on which `stop` has returned.

Results, for every order of the steps of the two parties:
- `closing_stop`, `closing_step`, `closing_clientStep`, `closing_clientReturn`, `closing_spurious`: every step keeps it;
- `Closing.unstuck`, `Closed.enabled`: `stop` returns, and the thread leaves its loop; each step lowers the potential;
- `Closed.at_end`: out of the loop every started job has finished, the other jobs are still queued;
- `closed_step_starts`: behind the close a thread starts only a job it had checked for.
-/
import K23Search.Concurrency.Liveness

namespace K23Search

open CQueue (Pc Call Ret wakeUp)

namespace Worker

variable {J : Type}

/-- `stop()` is called -/
def stop (w : Worker J) : Option (Worker J) :=
  (w.queue.call .client .close).map fun queue => { w with queue := queue }

/-! ## A worker that is being stopped -/

/-- where the client is in `close`, or behind it -/
def closing : Bool → Pc J → Prop
  | false, .lock .close => True
  | false, .locked .close => True
  | true, .signalLocked .void => True
  | true, .unlock false .void => True
  | true, .done .void => True
  | true, .idle => True
  | _, _ => False

structure Closing (w : Worker J) : Prop where
  sound : Sound w
  client_at : closing w.queue.closed (w.queue.pc .client)
  /-- a blocked worker is about to be woken -/
  waits : (w.queue.pc .worker).isWaiting = true → w.queue.closed = true → (w.queue.pc .client).signals = true

/-- `stop` has returned -/
def Closed (w : Worker J) : Prop := Closing w ∧ w.queue.pc .client = .idle

variable {w w' : Worker J} {woken : Party → Bool}

theorem closing_lock {b : Bool} {k : Call J} (h : closing b (.lock k)) : b = false ∧ k = .close := by
  cases b <;> cases k <;> first | exact ⟨rfl, rfl⟩ | cases h

theorem closing_locked {b : Bool} {k : Call J} (h : closing b (.locked k)) : b = false ∧ k = .close := by
  cases b <;> cases k <;> first | exact ⟨rfl, rfl⟩ | cases h

theorem closing_signalLocked {b : Bool} {r : Ret J} (h : closing b (.signalLocked r)) : b = true ∧ r = .void := by
  cases b <;> cases r <;> first | exact ⟨rfl, rfl⟩ | cases h

theorem closing_unlock {b sig : Bool} {r : Ret J} (h : closing b (.unlock sig r)) :
    b = true ∧ sig = false ∧ r = .void := by
  cases b <;> cases sig <;> cases r <;> first | exact ⟨rfl, rfl, rfl⟩ | cases h

theorem closing_done {b : Bool} {r : Ret J} (h : closing b (.done r)) : b = true := by
  cases b <;> first | rfl | cases h

theorem closing_not_waiting {b : Bool} {p : Pc J} (h : closing b p) : p.isWaiting = false := by
  cases p <;> first | rfl | (cases b <;> cases h)

theorem Closing.wakeUp_client (h : Closing w) (woken : Party → Bool) :
    wakeUp woken w.queue.pc .client = w.queue.pc .client :=
  CQueue.wakeUp_of_not_waiting (closing_not_waiting h.client_at)

theorem Closed.closed (h : Closed w) : w.queue.closed = true := by
  have hat := h.1.client_at
  rw [h.2] at hat
  cases hc : w.queue.closed with
  | true => rfl
  | false =>
    rw [hc] at hat
    cases hat

/-- behind `stop` no worker is blocked -/
theorem Closed.awake (h : Closed w) : (w.queue.pc .worker).isWaiting = false := by
  cases hw : (w.queue.pc .worker).isWaiting with
  | false => rfl
  | true =>
    have hsig := h.1.waits hw h.closed
    rw [h.2] at hsig
    cases hsig

/-- what a step of the thread leaves alone, and where it blocks -/
theorem Move.frame (h : Move woken w w') : w'.queue.closed = w.queue.closed ∧
    (w'.queue.pc .client = w.queue.pc .client ∨ w'.queue.pc .client = wakeUp woken w.queue.pc .client) ∧
    ((w'.queue.pc .worker).isWaiting = true → (w.queue.pc .worker).isWaiting = true ∨ w.queue.closed = false) := by
  cases h with
  | block hpc hq hnodes hopen => exact ⟨rfl, .inl (by simp [CQueue.block]), fun _ => .inr hopen⟩
  | signal r hpc hq hok => exact ⟨rfl, .inr (by simp), fun hw => by simp [Pc.isWaiting] at hw⟩
  | leave p hpc hclosed => exact ⟨rfl, .inl rfl, .inl⟩
  | pass p hpc hopen => exact ⟨rfl, .inl rfl, .inl⟩
  | start p j hpc hj => exact ⟨rfl, .inl rfl, .inl⟩
  | finish p j hpc => exact ⟨rfl, .inl rfl, .inl⟩
  | _ => exact ⟨rfl, .inl (by simp), fun hw => by simp [Pc.isWaiting] at hw⟩

/-- a step of the worker's thread -/
theorem closing_step (h : Closing w) (hs : w.step woken = some w') :
    Closing w' ∧ w'.queue.pc .client = w.queue.pc .client := by
  obtain ⟨hclosed, hclient, hwait⟩ := (step_move h.sound hs).frame
  have hsame : w'.queue.pc .client = w.queue.pc .client := by
    rcases hclient with hc | hc
    · exact hc
    · rw [hc, h.wakeUp_client]
  refine ⟨⟨sound_step h.sound hs, by rw [hclosed, hsame]; exact h.client_at, fun hw hc => ?_⟩, hsame⟩
  rw [hclosed] at hc
  rw [hsame]
  rcases hwait hw with hw | hopen
  · exact h.waits hw hc
  · rw [hopen] at hc
    cases hc

/-- the client goes on in `close` -/
theorem Sound.client_goto (h : Sound w) {q : CQueue Party J} {p : Pc J} (hmutex : (q.goto .client p).MutexInv)
    (hq : q.q = w.queue.q) (hworker : q.pc .worker = w.queue.pc .worker ∨ q.pc .worker = relock (w.queue.pc .worker))
    (hclosed : w.queue.closed = true → q.closed = true) (hpend : pending p = pending (w.queue.pc .client))
    (hp : p.isWaiting = false) : Sound { w with queue := q.goto .client p } := by
  obtain ⟨ph, todo, hph, hok, hsub⟩ := h.work
  have hsame : phaseOut w.pc (q.pc .worker) = some ph ∧
      (leaves w.pc (q.pc .worker) = true → leaves w.pc (w.queue.pc .worker) = true) := by
    rcases hworker with hw | hw
    · rw [hw]
      exact ⟨hph, id⟩
    · rw [hw]
      cases hwait : w.queue.pc .worker with
      | waiting k =>
        obtain ⟨hpc, rfl⟩ := h.at_waiting hwait
        rw [hpc, hwait] at hph
        rw [hpc]
        exact ⟨hph, nofun⟩
      | _ => rw [← hwait, relock_eq (by rw [hwait]; rfl)]; exact ⟨hph, id⟩
  refine ⟨hmutex, ⟨ph, todo, ?_, ?_, ?_⟩, ?_, ?_⟩
  · simp only [goto_client]
    exact hsame.1
  · simp only [CQueue.goto_q, hq]
    exact hok
  · simp only [CQueue.goto_pc, hpend]
    exact hsub
  · simp only [goto_client, CQueue.goto_closed]
    exact fun hl => hclosed (h.leaving (hsame.2 hl))
  · simp only [CQueue.goto_pc]
    intro j hj
    rw [hj] at hp
    cases hp

/-- `stop` is called on a worker that nobody else uses -/
theorem closing_stop (h : Inv .out w) (hs : w.stop = some w') : Closing w' ∧ w'.queue.pc .client ≠ .idle := by
  obtain ⟨q, hq, rfl⟩ := Option.map_eq_some_iff.1 hs
  have hmutex := CQueue.mutex_call h.mutex hq
  obtain ⟨hidle, rfl⟩ := CQueue.call_some hq
  refine ⟨?_, by simp⟩
  refine ⟨h.sound.client_goto hmutex rfl (.inl rfl) id (by rw [hidle]; rfl) rfl, ?_, fun _ hc => ?_⟩
  · simp only [CQueue.goto_pc, CQueue.goto_closed, h.opened]
    trivial
  · simp only [CQueue.goto_closed, h.opened] at hc
    cases hc

/-- where `close` goes -/
theorem closing_next (h : Closing w) {q : CQueue Party J} (hs : w.queue.step .client woken = some q) :
    (w.queue.pc .client = .lock .close ∧ w.queue.mutex = none ∧
      q = CQueue.goto { w.queue with mutex := some .client } .client (.locked .close)) ∨
    (w.queue.pc .client = .locked .close ∧ q = CQueue.goto { w.queue with closed := true } .client (.signalLocked .void)) ∨
    (w.queue.pc .client = .signalLocked .void ∧ w.queue.SignalOk woken ∧
      q = CQueue.goto { w.queue with pc := wakeUp woken w.queue.pc } .client (.unlock false .void)) ∨
    (w.queue.pc .client = .unlock false .void ∧
      q = CQueue.goto { w.queue with mutex := none } .client (.done .void)) := by
  have hat := h.client_at
  rcases CQueue.step_cases hs with ⟨k, hpc, hfree, rfl⟩ | ⟨k, hpc, rfl⟩ | ⟨r, hpc, hok, rfl⟩ | ⟨sig, r, hpc, rfl⟩ |
    ⟨r, hpc, -, rfl⟩ <;> rw [hpc] at hat
  · obtain ⟨-, rfl⟩ := closing_lock hat
    exact .inl ⟨hpc, hfree, rfl⟩
  · obtain ⟨hopen, rfl⟩ := closing_locked hat
    refine .inr (.inl ⟨hpc, ?_⟩)
    simp only [CQueue.body, hopen, Bool.not_false, if_true]
  · obtain ⟨-, rfl⟩ := closing_signalLocked hat
    exact .inr (.inr (.inl ⟨hpc, hok, rfl⟩))
  · obtain ⟨-, rfl, rfl⟩ := closing_unlock hat
    exact .inr (.inr (.inr ⟨hpc, rfl⟩))
  · cases hclosed : w.queue.closed <;> rw [hclosed] at hat <;> cases hat

/-- a step of the client in `close` -/
theorem closing_clientStep (h : Closing w) (hs : w.clientStep woken = some w') :
    Closing w' ∧ w'.queue.pc .client ≠ .idle := by
  obtain ⟨q, hq, rfl⟩ := Option.map_eq_some_iff.1 hs
  refine ⟨?_, by rcases closing_next h hq with ⟨-, -, rfl⟩ | ⟨-, rfl⟩ | ⟨-, -, rfl⟩ | ⟨-, rfl⟩ <;> simp⟩
  have hmutex := CQueue.mutex_step h.sound.mutex hq
  have hat := h.client_at
  rcases closing_next h hq with ⟨hpc, -, rfl⟩ | ⟨hpc, rfl⟩ | ⟨hpc, hok, rfl⟩ | ⟨hpc, rfl⟩ <;> rw [hpc] at hat
  · have hopen := (closing_lock hat).1
    refine ⟨h.sound.client_goto hmutex rfl (.inl rfl) id (by rw [hpc]; rfl) rfl, ?_, fun _ hc => ?_⟩
    · simp only [CQueue.goto_pc, CQueue.goto_closed, hopen]
      trivial
    · simp only [CQueue.goto_closed, hopen] at hc
      cases hc
  · refine ⟨h.sound.client_goto hmutex rfl (.inl rfl) (fun _ => rfl) (by rw [hpc]; rfl) rfl, ?_, fun _ _ => ?_⟩
    · simp only [CQueue.goto_pc, CQueue.goto_closed]
      trivial
    · simp only [CQueue.goto_pc]
      rfl
  · -- the signal reaches the worker, if it waits
    have hclosed := (closing_signalLocked hat).1
    have hawake := signalled (t := .client) (u := .worker) (fun x => by cases x <;> simp) hok (by rw [hpc]; rfl)
    have hworker : wakeUp woken w.queue.pc .worker = w.queue.pc .worker ∨
        wakeUp woken w.queue.pc .worker = relock (w.queue.pc .worker) := by
      rw [wakeUp_eq]
      split
      · exact .inr rfl
      · exact .inl rfl
    refine ⟨h.sound.client_goto hmutex rfl hworker id (by rw [hpc]; rfl) rfl, ?_, fun hw _ => ?_⟩
    · simp only [CQueue.goto_pc, CQueue.goto_closed, hclosed]
      trivial
    · simp only [goto_client, hawake] at hw
      cases hw
  · have hclosed := (closing_unlock hat).1
    refine ⟨h.sound.client_goto hmutex rfl (.inl rfl) id (by rw [hpc]; rfl) rfl, ?_, fun hw _ => ?_⟩
    · simp only [CQueue.goto_pc, CQueue.goto_closed, hclosed]
      trivial
    · simp only [goto_client] at hw
      have hsig := h.waits hw hclosed
      rw [hpc] at hsig
      cases hsig

/-- `stop` returns -/
theorem closing_clientReturn (h : Closing w) (hs : w.clientReturn = some w') : Closed w' := by
  obtain ⟨⟨r, q⟩, hq, rfl⟩ := Option.map_eq_some_iff.1 hs
  have hmutex := CQueue.mutex_take h.sound.mutex hq
  have hat := h.client_at
  obtain ⟨hpc, rfl⟩ := CQueue.take_some hq
  rw [hpc] at hat
  have hclosed := closing_done hat
  refine ⟨⟨h.sound.client_goto hmutex rfl (.inl rfl) id (by rw [hpc]; rfl) rfl, ?_, fun hw hc => ?_⟩, ?_⟩
  · simp only [CQueue.goto_pc, CQueue.goto_closed, hclosed]
    trivial
  · simp only [goto_client] at hw
    have hsig := h.waits hw hclosed
    rw [hpc] at hsig
    cases hsig
  · simp only [CQueue.goto_pc]

theorem closing_spurious (h : Closing w) {t : Party} (hs : w.spurious t = some w') :
    Closing w' ∧ w'.queue.pc .client = w.queue.pc .client ∧ w'.potential ≤ w.potential + 3 := by
  obtain ⟨q, hq, rfl⟩ := Option.map_eq_some_iff.1 hs
  have hmutex := CQueue.mutex_spurious h.sound.mutex hq
  obtain ⟨k, hpc, rfl⟩ := CQueue.spurious_some hq
  cases t with
  | client =>
    have hno := closing_not_waiting h.client_at
    rw [hpc] at hno
    cases hno
  | worker =>
    obtain ⟨hpeek, rfl⟩ := h.sound.at_waiting hpc
    refine ⟨⟨h.sound.goto hmutex rfl rfl (fun ph hph => ?_) (by rw [hpeek]; nofun), ?_, ?_⟩, by simp, ?_⟩
    · rw [hpeek, hpc] at hph
      rwa [hpeek]
    · simp only [goto_worker, CQueue.goto_closed]
      exact h.client_at
    · simp only [CQueue.goto_pc]
      nofun
    · simp only [potential, goto_worker, CQueue.goto_pc, CQueue.goto_q, hpc, hpeek, rank]
      omega

/-! ## Potential and progress of a closing worker -/

theorem Closing.step_potential (h : Closing w) (hs : w.step woken = some w') : w'.potential < w.potential := by
  refine Worker.step_potential h.sound ?_ hs
  rw [h.wakeUp_client]
  exact Nat.le_add_right _ 3

theorem Closing.clientStep_potential (h : Closing w) (hs : w.clientStep woken = some w') :
    w'.potential < w.potential := by
  obtain ⟨q, hq, rfl⟩ := Option.map_eq_some_iff.1 hs
  have hwake := h.sound.rank_wakeUp woken
  unfold potential
  rcases closing_next h hq with ⟨hpc, -, rfl⟩ | ⟨hpc, rfl⟩ | ⟨hpc, -, rfl⟩ | ⟨hpc, rfl⟩
  · simp [hpc, clientRank]
  · simp [hpc, clientRank]
  · simp only [goto_client, CQueue.goto_pc, CQueue.goto_q, hpc, clientRank]
    omega
  · simp [hpc, clientRank]

theorem stop_potential (hs : w.stop = some w') : w'.potential = w.potential + 7 := by
  obtain ⟨q, hq, rfl⟩ := Option.map_eq_some_iff.1 hs
  obtain ⟨hpc, rfl⟩ := CQueue.call_some hq
  simp only [potential, goto_client, CQueue.goto_pc, CQueue.goto_q, hpc, clientRank]

/-- `close` goes on, or the worker has the lock and goes on -/
theorem Closing.unstuck (h : Closing w) (hne : w.queue.pc .client ≠ .idle) :
    (∃ w', w.clientReturn = some w') ∨ (w.clientReturn = none ∧ ∃ w', w.clientStep (fun _ => true) = some w') ∨
      ∃ w', w.step (fun _ => true) = some w' :=
  h.sound.client_moves hne (closing_not_waiting h.client_at)

/-- behind `stop` the thread runs until it has left its loop -/
theorem Closed.enabled (h : Closed w) (hrun : w.pc ≠ .stopped) : ∃ w', w.step (fun _ => true) = some w' := by
  refine h.1.sound.enabled hrun h.awake fun hm => ?_
  have hholds := (h.1.sound.mutex .client).1 hm
  rw [h.2] at hholds
  cases hholds

/-- a thread that has left its loop does nothing more, and its jobs have returned -/
theorem Closed.at_end (h : Closed w) (hstop : w.pc = .stopped) : w.started = w.finished ∧
    w.submitted = w.finished ++ w.queue.q.nodes.map Prod.snd ∧ (∀ woken, w.step woken = none) ∧
    ∀ t, w.spurious t = none := by
  have hidle := h.1.sound.idle (by rw [hstop]; rfl)
  obtain ⟨ph, todo, hph, hok, hsub⟩ := h.1.sound.work
  rw [hstop, hidle] at hph
  cases hph
  rw [h.2, show pending (.idle : Pc J) = [] from rfl, List.append_nil, hok.2] at hsub
  refine ⟨hok.1, hsub, fun woken => by simp only [step, hstop], fun t => ?_⟩
  cases t with
  | client => simp only [spurious, CQueue.spurious, h.2]; rfl
  | worker => simp only [spurious, CQueue.spurious, hidle]; rfl

/-! ## Jobs behind the close -/

/-- 1 for a thread that has passed `is_closed` and not called the job yet -/
def slack : WorkerPc J → ℕ
  | .ready _ => 1
  | _ => 0

/-- with the queue closed a thread starts a job only if it has passed `is_closed` before -/
theorem closed_step_starts (h : Sound w) (hclosed : w.queue.closed = true) (hs : w.step woken = some w') :
    w'.started.length + slack w'.pc ≤ w.started.length + slack w.pc := by
  cases step_move h hs with
  | pass p hpc hopen =>
    rw [hclosed] at hopen
    cases hopen
  | start p j hpc hj => simp [hpc, slack]
  | _ => simp_all [slack]

/-- the thread is where it was, and a closed queue is closed -/
structure Quiet (w w' : Worker J) : Prop where
  pc : w'.pc = w.pc
  started : w'.started = w.started
  closed : w.queue.closed = true → w'.queue.closed = true

theorem Quiet.refl (w : Worker J) : Quiet w w := ⟨rfl, rfl, id⟩

theorem Quiet.trans {w₁ w₂ w₃ : Worker J} (h : Quiet w₁ w₂) (h' : Quiet w₂ w₃) : Quiet w₁ w₃ :=
  ⟨h'.pc.trans h.pc, h'.started.trans h.started, fun hc => h'.closed (h.closed hc)⟩

theorem quiet_clientReturn (hs : w.clientReturn = some w') : Quiet w w' := by
  obtain ⟨⟨r, q⟩, hq, rfl⟩ := Option.map_eq_some_iff.1 hs
  obtain ⟨-, rfl⟩ := CQueue.take_some hq
  exact ⟨rfl, rfl, id⟩

theorem quiet_stop (hs : w.stop = some w') : Quiet w w' := by
  obtain ⟨q, hq, rfl⟩ := Option.map_eq_some_iff.1 hs
  obtain ⟨-, rfl⟩ := CQueue.call_some hq
  exact ⟨rfl, rfl, id⟩

theorem quiet_spurious {t : Party} (hs : w.spurious t = some w') : Quiet w w' := by
  obtain ⟨q, hq, rfl⟩ := Option.map_eq_some_iff.1 hs
  obtain ⟨k, -, rfl⟩ := CQueue.spurious_some hq
  exact ⟨rfl, rfl, id⟩

theorem Closing.quiet_clientStep (h : Closing w) (hs : w.clientStep woken = some w') : Quiet w w' := by
  obtain ⟨q, hq, rfl⟩ := Option.map_eq_some_iff.1 hs
  refine ⟨rfl, rfl, fun hc => ?_⟩
  rcases closing_next h hq with ⟨-, -, rfl⟩ | ⟨-, rfl⟩ | ⟨-, -, rfl⟩ | ⟨-, rfl⟩ <;> first | exact hc | rfl

end Worker

end K23Search
