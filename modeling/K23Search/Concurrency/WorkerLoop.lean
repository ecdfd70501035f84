/-
The loop of `qs::worker::start` (include/qs/scheduler.hpp) on a queue that may be open, closing or closed.

`Sound` is what the thread relies on: it is at a point of its loop with a queue in the phase of that point, and out of
the loop only if the queue is closed. `Move` lists what one step can do.

Results:
- `step_move`: every step from a sound state is one of the moves;
- `sound_step`: a step keeps soundness; `Inv.sound`: the invariant of an open queue gives it;
- `Sound.enabled`: a thread that neither waits nor has to wait for the lock can take a step, until it has stopped;
  `Sound.client_moves`: a client that does not wait goes on, or the thread does;
- `Sound.deref`: the worker reads a job only through the pointer to the head of its queue.
-/
import K23Search.Concurrency.Worker

namespace K23Search

open CQueue (Pc Call Ret wakeUp)

/-! ## Blocking points of the queue -/

namespace CQueue

@[simp] theorem goto_q {Tid T : Type} [DecidableEq Tid] (c : CQueue Tid T) (t : Tid) (p : Pc T) :
    (c.goto t p).q = c.q := rfl

@[simp] theorem goto_closed {Tid T : Type} [DecidableEq Tid] (c : CQueue Tid T) (t : Tid) (p : Pc T) :
    (c.goto t p).closed = c.closed := rfl

theorem signals_of_waiting {T : Type} {p : Pc T} (h : p.isWaiting = true) : p.signals = false := by
  cases p <;> first | rfl | cases h

theorem holds_of_waiting {T : Type} {p : Pc T} (h : p.isWaiting = true) : p.holds = false := by
  cases p <;> first | rfl | cases h

/-- a thread that is at none of its blocking points can take a step -/
theorem step_enabled {Tid T : Type} [DecidableEq Tid] [Fintype Tid] {c : CQueue Tid T} {t : Tid} {p : Pc T}
    (ht : c.pc t = p) (hidle : p ≠ .idle) (hdone : ∀ r, p ≠ .done r) (hw : p.isWaiting = false)
    (hlock : ∀ k, p = .lock k → c.mutex = none) : ∃ c', c.step t (fun _ => true) = some c' := by
  have hsignal : c.signal (fun _ => true) = some { c with pc := wakeUp (fun _ => true) c.pc } :=
    if_pos fun ⟨u, hu⟩ => ⟨u, hu, rfl⟩
  cases p with
  | idle => exact absurd rfl hidle
  | lock k => exact ⟨_, by simp only [step, ht]; exact if_pos (hlock k rfl)⟩
  | locked k => exact ⟨_, by simp only [step, ht]; rfl⟩
  | waiting k => cases hw
  | signalLocked r => exact ⟨_, by simp only [step, ht, hsignal]; rfl⟩
  | unlock sig r => exact ⟨_, by simp only [step, ht]; rfl⟩
  | signal r => exact ⟨_, by simp only [step, ht, hsignal]; rfl⟩
  | done r => exact absurd rfl (hdone r)

/-- a thread inside a call returns from it, or steps in the queue -/
theorem take_or_step {Tid T : Type} [DecidableEq Tid] [Fintype Tid] {c : CQueue Tid T} {t : Tid}
    (hidle : c.pc t ≠ .idle) (hw : (c.pc t).isWaiting = false) (hlock : ∀ k, c.pc t = .lock k → c.mutex = none) :
    (∃ r, c.pc t = .done r ∧ c.take t = some (r, c.goto t .idle)) ∨
      (c.take t = none ∧ ∃ c', c.step t (fun _ => true) = some c') := by
  by_cases hdone : ∃ r, c.pc t = .done r
  · obtain ⟨r, hr⟩ := hdone
    exact .inl ⟨r, hr, by simp only [take, hr]⟩
  · refine .inr ⟨?_, step_enabled rfl hidle (fun r hr => hdone ⟨r, hr⟩) hw hlock⟩
    unfold take
    split
    · next r hr => exact absurd ⟨r, hr⟩ hdone
    · rfl

end CQueue

namespace Worker

variable {J : Type}

/-! ## Phases, with the way out of the loop -/

/-- the points that a thread reaches only after it has found the queue closed -/
def leaves : WorkerPc J → Pc J → Bool
  | .peeking, .unlock false (.ptr none) => true
  | .peeking, .done (.ptr none) => true
  | .peeked none, .idle => true
  | .stopped, .idle => true
  | _, _ => false

/-- `phase`, also on the way out -/
def phaseOut (pc : WorkerPc J) (p : Pc J) : Option (Phase J) := if leaves pc p then some .unseen else phase pc p

theorem phase_of_leaves {pc : WorkerPc J} {p : Pc J} (h : leaves pc p = true) : phase pc p = none := by
  unfold leaves at h
  split at h <;> first | rfl | cases h

theorem phaseOut_eq {pc : WorkerPc J} {p : Pc J} {ph : Phase J} (h : phase pc p = some ph) :
    leaves pc p = false ∧ phaseOut pc p = some ph := by
  have hl : leaves pc p = false := by
    cases hl : leaves pc p with
    | false => rfl
    | true =>
      rw [phase_of_leaves hl] at h
      cases h
  exact ⟨hl, by rw [phaseOut, hl]; exact h⟩

/-- off the way out the two agree -/
theorem phase_of_stays {pc : WorkerPc J} {p : Pc J} {ph : Phase J} (hl : leaves pc p = false)
    (h : phaseOut pc p = some ph) : phase pc p = some ph := by
  rw [phaseOut, hl] at h
  exact h

theorem leaves_unlock (pc : WorkerPc J) (r : Ret J) : leaves pc (.done r) = leaves pc (.unlock false r) := by
  cases pc <;> rcases r with _ | (_ | _) | _ | _ <;> simp [leaves]

theorem phaseOut_unlock {pc : WorkerPc J} {r : Ret J} {ph : Phase J} (h : phaseOut pc (.unlock false r) = some ph) :
    phaseOut pc (.done r) = some ph := by
  unfold phaseOut at h ⊢
  rw [leaves_unlock]
  split
  · next hl => rwa [if_pos hl] at h
  · next hl => exact (phase_unlock (by rwa [if_neg hl] at h)).2

theorem phaseOut_idle {pc : WorkerPc J} {p : Pc J} {ph : Phase J} (hpc : pc.inCall = false)
    (h : phaseOut pc p = some ph) : p = .idle := by
  cases hl : leaves pc p with
  | false => exact phase_idle hpc (phase_of_stays hl h)
  | true =>
    unfold leaves at hl
    split at hl <;> first | rfl | cases hpc | cases hl

/-! ## Soundness -/

structure Sound (w : Worker J) : Prop where
  mutex : w.queue.MutexInv
  work : ∃ ph todo, phaseOut w.pc (w.queue.pc .worker) = some ph ∧
    ph.Ok w.queue.q.nodes w.started w.finished todo ∧
    w.submitted = w.finished ++ todo ++ pending (w.queue.pc .client)
  leaving : leaves w.pc (w.queue.pc .worker) = true → w.queue.closed = true
  /-- the client does not block in `enqueue` -/
  client_ok : ∀ j, w.queue.pc .client ≠ .waiting (.enqueue j)

variable {role : Role} {w w' : Worker J} {woken : Party → Bool}

theorem Inv.sound (h : Inv role w) : Sound w := by
  obtain ⟨ph, todo, hph, hok, hsub⟩ := h.inv_at.work
  obtain ⟨hl, hout⟩ := phaseOut_eq hph
  refine ⟨h.mutex, ⟨ph, todo, hout, hok, hsub⟩, fun hleaves => ?_, fun j hj => ?_⟩
  · rw [hl] at hleaves
    cases hleaves
  · have hclient := h.inv_at.client_ok
    rw [hj] at hclient
    cases (clientOk_waiting hclient).2

/-- a thread out of its calls is idle in the queue -/
theorem Sound.idle (h : Sound w) (hpc : w.pc.inCall = false) : w.queue.pc .worker = .idle := by
  obtain ⟨ph, -, hph, -⟩ := h.work
  exact phaseOut_idle hpc hph

/-- a thread that waits is in `peek` -/
theorem Sound.at_waiting (h : Sound w) {k : Call J} (hpc : w.queue.pc .worker = .waiting k) :
    w.pc = .peeking ∧ k = .peek := by
  obtain ⟨ph, -, hph, -⟩ := h.work
  rw [hpc] at hph
  obtain ⟨h₁, h₂, -⟩ := phase_waiting (phase_of_stays (by cases w.pc <;> simp [leaves]) hph)
  exact ⟨h₁, h₂⟩

/-- behind the lock, `dequeue` finds the job that has run -/
theorem Sound.at_locked (h : Sound w) {k : Call J} (hpc : w.queue.pc .worker = .locked k) :
    (w.pc = .peeking ∧ k = .peek) ∨ (w.pc = .dequeuing ∧ k = .dequeue ∧ ∃ x rest, w.queue.q.nodes = x :: rest) := by
  obtain ⟨ph, todo, hph, hok, -⟩ := h.work
  rw [hpc] at hph
  rcases phase_locked (phase_of_stays (by cases w.pc <;> simp [leaves]) hph) with ⟨h₁, h₂, -⟩ | ⟨h₁, h₂, rfl⟩
  · exact .inl ⟨h₁, h₂⟩
  · obtain ⟨-, x, rest, hnodes, -⟩ := hok
    exact .inr ⟨h₁, h₂, x, rest, hnodes⟩

/-- the thread calls and deletes the job at the head of its queue -/
theorem Sound.deref (h : Sound w) :
    (∀ p, w.pc = .ready p → ∃ j, w.queue.q.get p = some j) ∧
    (∀ p j, w.pc = .running p j → w.queue.q.get p = some j) := by
  obtain ⟨ph, todo, hph, hok, -⟩ := h.work
  constructor
  · intro p hpc
    rw [hpc, h.idle (by rw [hpc]; rfl)] at hph
    cases hph
    obtain ⟨-, -, j, rest, hnodes⟩ := hok
    exact ⟨j, DList.get_eq.2 (by rw [hnodes]; exact List.mem_cons_self)⟩
  · intro p j hpc
    rw [hpc, h.idle (by rw [hpc]; rfl)] at hph
    cases hph
    obtain ⟨-, -, rest, hnodes⟩ := hok
    exact DList.get_eq.2 (by rw [hnodes]; exact List.mem_cons_self)

/-- started jobs are submitted ones, in order -/
theorem Sound.started_order (h : Sound w) : w.finished <+: w.started ∧ w.started <+: w.submitted := by
  obtain ⟨ph, todo, -, hok, hsub⟩ := h.work
  cases ph with
  | running p j =>
    obtain ⟨hstart, htodo, rest, hnodes⟩ := hok
    refine ⟨⟨[j], hstart.symm⟩, ⟨rest.map Prod.snd ++ pending (w.queue.pc .client), ?_⟩⟩
    rw [hsub, hstart, htodo, hnodes]
    simp
  | _ =>
    rw [hok.1]
    exact ⟨List.prefix_refl _, todo ++ pending (w.queue.pc .client), by rw [hsub, List.append_assoc]⟩

/-! ## What a step can do -/

/-- one step of the thread. `peek` returns the pointer to the head of the list, or null from a closed empty one. -/
inductive Move (woken : Party → Bool) (w : Worker J) : Worker J → Prop where
  | callPeek (hpc : w.pc = .top) (hq : w.queue.pc .worker = .idle) :
    Move woken w { w with queue := w.queue.goto .worker (.lock .peek), pc := .peeking }
  | callDequeue (hpc : w.pc = .ran) (hq : w.queue.pc .worker = .idle) :
    Move woken w { w with queue := w.queue.goto .worker (.lock .dequeue), pc := .dequeuing }
  | acquire (k : Call J) (hq : w.queue.pc .worker = .lock k) (hfree : w.queue.mutex = none) :
    Move woken w { w with queue := CQueue.goto { w.queue with mutex := some .worker } .worker (.locked k) }
  | block (hpc : w.pc = .peeking) (hq : w.queue.pc .worker = .locked .peek) (hnodes : w.queue.q.nodes = [])
    (hopen : w.queue.closed = false) : Move woken w { w with queue := w.queue.block .worker .peek }
  | look (hpc : w.pc = .peeking) (hq : w.queue.pc .worker = .locked .peek)
    (hgo : w.queue.q.nodes = [] → w.queue.closed = true) :
    Move woken w { w with queue := w.queue.goto .worker (.unlock false (.ptr (w.queue.q.nodes.head?.map Prod.fst))) }
  | remove (x : ℕ × J) (rest : List (ℕ × J)) (d : DList J) (e : Bool) (hpc : w.pc = .dequeuing)
    (hq : w.queue.pc .worker = .locked .dequeue) (hnodes : w.queue.q.nodes = x :: rest) (hd : d.nodes = rest) :
    Move woken w { w with
      queue := CQueue.goto { w.queue with q := d } .worker (.signalLocked (.item (some x.2) e)) }
  | signal (r : Ret J) (hpc : w.pc = .dequeuing) (hq : w.queue.pc .worker = .signalLocked r)
    (hok : w.queue.SignalOk woken) : Move woken w { w with
      queue := CQueue.goto { w.queue with pc := wakeUp woken w.queue.pc } .worker (.unlock false r) }
  | release (r : Ret J) (hq : w.queue.pc .worker = .unlock false r) :
    Move woken w { w with queue := CQueue.goto { w.queue with mutex := none } .worker (.done r) }
  | peeked (p : Option ℕ) (hpc : w.pc = .peeking) (hq : w.queue.pc .worker = .done (.ptr p)) :
    Move woken w { w with queue := w.queue.goto .worker .idle, pc := .peeked p }
  | leave (p : Option ℕ) (hpc : w.pc = .peeked p) (hclosed : w.queue.closed = true) :
    Move woken w { w with pc := .stopped }
  | pass (p : ℕ) (hpc : w.pc = .peeked (some p)) (hopen : w.queue.closed = false) :
    Move woken w { w with pc := .ready p }
  | start (p : ℕ) (j : J) (hpc : w.pc = .ready p) (hj : w.queue.q.get p = some j) :
    Move woken w { w with pc := .running p j, started := w.started ++ [j] }
  | finish (p : ℕ) (j : J) (hpc : w.pc = .running p j) :
    Move woken w { w with pc := .ran, finished := w.finished ++ [j] }
  | dequeued (r : Ret J) (hpc : w.pc = .dequeuing) (hq : w.queue.pc .worker = .done r) :
    Move woken w { w with queue := w.queue.goto .worker .idle, pc := .top }

/-- a step inside `peek` or `dequeue` -/
theorem move_queue (h : Sound w) {q : CQueue Party J} (hs : w.queue.step .worker woken = some q) :
    Move woken w { w with queue := q } := by
  obtain ⟨ph, todo, hph, -, -⟩ := h.work
  rcases CQueue.step_cases hs with ⟨k, hq, hfree, rfl⟩ | ⟨k, hq, rfl⟩ | ⟨r, hq, hok, rfl⟩ | ⟨sig, r, hq, rfl⟩ |
    ⟨r, hq, -, rfl⟩
  · exact .acquire k hq hfree
  · rcases h.at_locked hq with ⟨hpc, rfl⟩ | ⟨hpc, rfl, x, rest, hnodes⟩
    · by_cases hblock : w.queue.q.nodes = [] ∧ w.queue.closed = false
      · rw [CQueue.peek_empty hblock.2 hblock.1]
        exact .block hpc hq hblock.1 hblock.2
      · have hgo : w.queue.q.nodes = [] → w.queue.closed = true := fun hn => by
          cases hc : w.queue.closed with
          | true => rfl
          | false => exact absurd ⟨hn, hc⟩ hblock
        have hbody : w.queue.body .worker .peek =
            w.queue.goto .worker (.unlock false (.ptr (w.queue.q.nodes.head?.map Prod.fst))) := by
          simp only [CQueue.body]
          rw [if_neg, w.queue.q.peek_eq, List.head?_map]
          intro hb
          simp only [Bool.and_eq_true, Bool.not_eq_true'] at hb
          exact hblock ⟨(DList.isEmpty_iff _).1 hb.1, hb.2⟩
        rw [hbody]
        exact .look hpc hq hgo
    · obtain ⟨d, e, hd, hbody⟩ := CQueue.dequeue_cons (t := .worker) hnodes
      rw [hbody]
      exact .remove x rest d e hpc hq hnodes hd
  · rw [hq] at hph
    have hpc : w.pc = .dequeuing := by
      have hstay := phase_of_stays (by cases w.pc <;> simp [leaves]) hph
      cases hpc : w.pc <;> cases r <;> simp_all [phase]
    exact .signal r hpc hq hok
  · -- the worker never signals after the unlock
    have hsig : sig = false := by
      rw [hq] at hph
      cases sig with
      | false => rfl
      | true =>
        obtain ⟨hf, -⟩ := phase_unlock (phase_of_stays (by cases w.pc <;> simp [leaves]) hph)
        exact hf
    subst hsig
    exact .release r hq
  · rw [hq] at hph
    have hstay := phase_of_stays (by cases w.pc <;> simp [leaves]) hph
    rw [phase_signal] at hstay
    cases hstay

/-- **Moves.** What a step of the thread does. -/
theorem step_move (h : Sound w) (hs : w.step woken = some w') : Move woken w w' := by
  unfold step at hs
  split at hs
  · next hpc =>
    obtain ⟨q, hq, rfl⟩ := Option.map_eq_some_iff.1 hs
    obtain ⟨hidle, rfl⟩ := CQueue.call_some hq
    exact .callPeek hpc hidle
  · next hpc =>
    split at hs
    · next p q hq =>
      cases hs
      obtain ⟨hdone, rfl⟩ := CQueue.take_some hq
      exact .peeked p hpc hdone
    · cases hs
    · obtain ⟨q, hq, rfl⟩ := Option.map_eq_some_iff.1 hs
      exact move_queue h hq
  · next p hpc =>
    split at hs
    · next hclosed =>
      cases hs
      exact .leave p hpc hclosed
    · next hopen =>
      split at hs
      · cases hs
        exact .pass _ hpc (by simpa using hopen)
      · -- null comes from a closed queue only
        have hidle := h.idle (by rw [hpc]; rfl)
        exact absurd (h.leaving (by rw [hpc, hidle]; rfl)) hopen
  · next p hpc =>
    obtain ⟨j, hj, rfl⟩ := Option.map_eq_some_iff.1 hs
    exact .start p j hpc hj
  · next p j hpc =>
    obtain ⟨-, -, rfl⟩ := Option.map_eq_some_iff.1 hs
    exact .finish p j hpc
  · next hpc =>
    obtain ⟨q, hq, rfl⟩ := Option.map_eq_some_iff.1 hs
    obtain ⟨hidle, rfl⟩ := CQueue.call_some hq
    exact .callDequeue hpc hidle
  · next hpc =>
    split at hs
    · next r q hq =>
      cases hs
      obtain ⟨hdone, rfl⟩ := CQueue.take_some hq
      exact .dequeued r hpc hdone
    · obtain ⟨q, hq, rfl⟩ := Option.map_eq_some_iff.1 hs
      exact move_queue h hq
  · cases hs

/-! ## Soundness is kept -/

/-- the thread goes on in the same phase -/
theorem Sound.goto (h : Sound w) {q : CQueue Party J} {p : Pc J} {pc : WorkerPc J}
    (hmutex : (q.goto .worker p).MutexInv) (hclient : q.pc .client = w.queue.pc .client) (hq : q.q = w.queue.q)
    (hph : ∀ ph, phaseOut w.pc (w.queue.pc .worker) = some ph → phaseOut pc p = some ph)
    (hleaving : leaves pc p = true → q.closed = true) :
    Sound { w with queue := q.goto .worker p, pc := pc } := by
  obtain ⟨ph, todo, hphase, hok, hsub⟩ := h.work
  refine ⟨hmutex, ⟨ph, todo, ?_, ?_, ?_⟩, ?_, ?_⟩
  · simp only [CQueue.goto_pc]
    exact hph ph hphase
  · simp only [CQueue.goto_q, hq]
    exact hok
  · simp only [goto_worker, hclient]
    exact hsub
  · simp only [CQueue.goto_pc, CQueue.goto_closed]
    exact hleaving
  · simp only [goto_worker, hclient]
    exact h.client_ok

/-- the thread stays in its place in the queue -/
theorem Sound.work_at (h : Sound w) {pc : WorkerPc J} {started finished : List J} (ph : Phase J) (todo : List J)
    (hpc : w.queue.pc .worker = .idle) (hph : phaseOut pc .idle = some ph)
    (hok : ph.Ok w.queue.q.nodes started finished todo)
    (hsub : w.submitted = finished ++ todo ++ pending (w.queue.pc .client))
    (hleaving : leaves pc (.idle : Pc J) = true → w.queue.closed = true) :
    Sound { w with pc := pc, started := started, finished := finished } :=
  ⟨h.mutex, ⟨ph, todo, by rw [hpc]; exact hph, hok, hsub⟩, by rw [hpc]; exact hleaving, h.client_ok⟩

/-- waking the client does not change what it has still to append -/
theorem Sound.pending_wakeUp (h : Sound w) (woken : Party → Bool) :
    pending (wakeUp woken w.queue.pc .client) = pending (w.queue.pc .client) ∧
      ∀ j, wakeUp woken w.queue.pc .client ≠ .waiting (.enqueue j) := by
  rw [wakeUp_eq]
  split
  · cases hp : w.queue.pc .client with
    | waiting k =>
      cases k with
      | enqueue j => exact absurd hp (h.client_ok j)
      | _ => exact ⟨rfl, nofun⟩
    | _ => exact ⟨rfl, nofun⟩
  · exact ⟨rfl, h.client_ok⟩

/-- **Loop step.** Every step of the thread keeps soundness, whether the queue is open or closed. -/
theorem sound_step (h : Sound w) (hs : w.step woken = some w') : Sound w' := by
  obtain ⟨ph, todo, hphase, hok, hsub⟩ := h.work
  cases step_move h hs with
  | callPeek hpc hq =>
    refine h.goto (CQueue.mutex_goto h.mutex (by rw [hq]; rfl)) rfl rfl (fun ph hph => ?_) nofun
    rwa [hpc, hq] at hph
  | callDequeue hpc hq =>
    refine h.goto (CQueue.mutex_goto h.mutex (by rw [hq]; rfl)) rfl rfl (fun ph hph => ?_) nofun
    rwa [hpc, hq] at hph
  | acquire k hq hfree =>
    have hstay : ∀ p : Pc J, p = .lock k ∨ p = .locked k → leaves w.pc p = false := by
      rintro p (rfl | rfl) <;> cases w.pc <;> simp [leaves]
    refine h.goto (q := { w.queue with mutex := some .worker }) (CQueue.mutex_acquire h.mutex hfree _ rfl) rfl rfl
      (fun ph hph => ?_) fun hl => by rw [hstay _ (.inr rfl)] at hl; cases hl
    rw [hq] at hph
    exact (phaseOut_eq (phase_lock (phase_of_stays (hstay _ (.inl rfl)) hph))).2
  | block hpc hq hnodes hopen =>
    refine h.goto (q := { w.queue with mutex := none }) (CQueue.mutex_release h.mutex (by rw [hq]; rfl) rfl) rfl rfl
      (fun ph hph => ?_) fun hl => by rw [hpc] at hl; cases hl
    rw [hpc, hq] at hph
    rwa [hpc]
  | look hpc hq hgo =>
    have hmutex := CQueue.mutex_goto h.mutex (p := .unlock false (.ptr (w.queue.q.nodes.head?.map Prod.fst)))
      (by rw [hq]; rfl)
    rw [hpc, hq] at hphase
    cases hphase
    obtain ⟨hstart, htodo⟩ := hok
    cases hnodes : w.queue.q.nodes with
    | nil =>
      refine ⟨by rw [hnodes] at hmutex; exact hmutex, ⟨.unseen, todo, ?_, ⟨hstart, htodo⟩, ?_⟩, ?_, ?_⟩
      · simp only [CQueue.goto_pc, hpc]
        rfl
      · simp only [goto_worker]
        exact hsub
      · exact fun _ => hgo hnodes
      · simp only [goto_worker]
        exact h.client_ok
    | cons x rest =>
      obtain ⟨p, j⟩ := x
      refine ⟨by rw [hnodes] at hmutex; exact hmutex, ⟨.seen p, todo, ?_, ⟨hstart, htodo, j, rest, hnodes⟩, ?_⟩, ?_, ?_⟩
      · simp only [CQueue.goto_pc, hpc]
        rfl
      · simp only [goto_worker]
        exact hsub
      · simp only [CQueue.goto_pc, hpc]
        nofun
      · simp only [goto_worker]
        exact h.client_ok
  | remove x rest d e hpc hq hnodes hd =>
    rw [hpc, hq] at hphase
    cases hphase
    obtain ⟨hstart, x', rest', hcons, htodo⟩ := hok
    rw [hnodes] at hcons
    cases hcons
    refine ⟨CQueue.mutex_goto (c := { w.queue with q := d }) h.mutex (by rw [hq]; rfl), ⟨.unseen, todo, ?_, ?_, ?_⟩, ?_, ?_⟩
    · simp only [CQueue.goto_pc, hpc]
      rfl
    · simp only [CQueue.goto_q]
      exact ⟨hstart, by rw [hd]; exact htodo⟩
    · simp only [goto_worker]
      exact hsub
    · simp only [CQueue.goto_pc, hpc]
      nofun
    · simp only [goto_worker]
      exact h.client_ok
  | signal r hpc hq hsig =>
    obtain ⟨hpend, hwait⟩ := h.pending_wakeUp woken
    have hstay : leaves w.pc (.signalLocked r : Pc J) = false := by rw [hpc]; rfl
    rw [hq] at hphase
    have hnext := phase_signalLocked (phase_of_stays hstay hphase)
    refine ⟨CQueue.mutex_wakeUp h.mutex woken (by rw [hq]; rfl), ⟨ph, todo, ?_, ?_, ?_⟩, ?_, ?_⟩
    · simp only [CQueue.goto_pc]
      exact (phaseOut_eq hnext).2
    · simp only [CQueue.goto_q]
      exact hok
    · simp only [goto_worker, hpend]
      exact hsub
    · simp only [CQueue.goto_pc, (phaseOut_eq hnext).1]
      nofun
    · simp only [goto_worker]
      exact hwait
  | release r hq =>
    refine h.goto (q := { w.queue with mutex := none }) (CQueue.mutex_release h.mutex (by rw [hq]; rfl) rfl) rfl rfl
      (fun ph hph => ?_) fun hl => ?_
    · rw [hq] at hph
      exact phaseOut_unlock hph
    · rw [leaves_unlock, ← hq] at hl
      exact h.leaving hl
  | peeked p hpc hq =>
    refine h.goto (CQueue.mutex_goto h.mutex (by rw [hq]; rfl)) rfl rfl (fun ph hph => ?_) fun hl => ?_
    · rw [hpc, hq] at hph
      cases p <;> exact hph
    · refine h.leaving ?_
      rw [hpc, hq]
      cases p with
      | none => rfl
      | some p => cases hl
  | leave p hpc hclosed =>
    have hidle := h.idle (by rw [hpc]; rfl)
    rw [hpc, hidle] at hphase
    refine h.work_at .unseen todo hidle rfl ?_ hsub fun _ => hclosed
    cases p with
    | none => cases hphase; exact hok
    | some p => cases hphase; exact ⟨hok.1, hok.2.1⟩
  | pass p hpc hopen =>
    have hidle := h.idle (by rw [hpc]; rfl)
    rw [hpc, hidle] at hphase
    cases hphase
    exact h.work_at _ todo hidle rfl hok hsub nofun
  | start p j hpc hj =>
    have hidle := h.idle (by rw [hpc]; rfl)
    rw [hpc, hidle] at hphase
    cases hphase
    obtain ⟨hstart, htodo, i, rest, hnodes⟩ := hok
    -- the pointer is that of the head
    have hij : i = j := by
      have hhead : w.queue.q.get p = some i := DList.get_eq.2 (by rw [hnodes]; exact List.mem_cons_self)
      rw [hhead] at hj
      exact Option.some.inj hj
    subst hij
    exact h.work_at _ todo hidle rfl ⟨by rw [hstart], htodo, rest, hnodes⟩ hsub nofun
  | finish p j hpc =>
    have hidle := h.idle (by rw [hpc]; rfl)
    rw [hpc, hidle] at hphase
    cases hphase
    obtain ⟨hstart, htodo, rest, hnodes⟩ := hok
    refine h.work_at .ran (rest.map Prod.snd) hidle rfl ⟨hstart, (p, j), rest, hnodes, rfl⟩ ?_ nofun
    rw [hsub, htodo, hnodes]
    simp
  | dequeued r hpc hq =>
    refine h.goto (CQueue.mutex_goto h.mutex (by rw [hq]; rfl)) rfl rfl (fun ph hph => ?_) nofun
    rw [hpc, hq] at hph
    cases r <;> first | exact hph | cases hph

/-! ## Enabled steps -/

/-- **Enabled.** The thread can take a step, until it has stopped, unless it waits, or the client has the lock. -/
theorem Sound.enabled (h : Sound w) (hrun : w.pc ≠ .stopped) (hw : (w.queue.pc .worker).isWaiting = false)
    (hlock : w.queue.mutex ≠ some .client) : ∃ w', w.step (fun _ => true) = some w' := by
  obtain ⟨ph, todo, hph, -, -⟩ := h.work
  have hidle : w.pc.inCall = false → w.queue.pc .worker = .idle := h.idle
  have hcall : ∀ k, w.queue.pc .worker = .idle → ∃ q, w.queue.call .worker k = some q := fun k hpc =>
    ⟨_, by simp only [CQueue.call, hpc]; rfl⟩
  have hfree : ∀ k, w.queue.pc .worker = .lock k → w.queue.mutex = none := by
    intro k hpc
    cases hm : w.queue.mutex with
    | none => rfl
    | some t =>
      cases t with
      | client => exact absurd hm hlock
      | worker =>
        have hholds := (h.mutex .worker).1 hm
        rw [hpc] at hholds
        cases hholds
  obtain ⟨hready, hrunning⟩ := h.deref
  cases hpc : w.pc with
  | top =>
    obtain ⟨q, hq⟩ := hcall .peek (hidle (by rw [hpc]; rfl))
    exact ⟨_, by simp only [step, hpc, hq]; rfl⟩
  | peeking =>
    rw [hpc] at hph
    rcases CQueue.take_or_step (fun hi => by rw [hi] at hph; cases hph) hw hfree with ⟨r, hr, ht⟩ | ⟨ht, q, hq⟩
    · -- the call that returns is `peek`
      rw [hr] at hph
      cases r with
      | ptr p => exact ⟨_, by simp only [step, hpc, ht]; rfl⟩
      | _ => cases hph
    · exact ⟨_, by simp only [step, hpc, ht, hq]; rfl⟩
  | peeked p =>
    cases hclosed : w.queue.closed with
    | true => exact ⟨_, by simp only [step, hpc, hclosed]; rfl⟩
    | false =>
      cases p with
      | none =>
        have hleft := h.leaving (by rw [hpc, hidle (by rw [hpc]; rfl)]; rfl)
        rw [hclosed] at hleft
        cases hleft
      | some p => exact ⟨_, by simp only [step, hpc, hclosed]; rfl⟩
  | ready p =>
    obtain ⟨j, hj⟩ := hready p hpc
    exact ⟨_, by simp only [step, hpc, hj]; rfl⟩
  | running p j =>
    have hj := hrunning p j hpc
    exact ⟨_, by simp only [step, hpc, hj]; rfl⟩
  | ran =>
    obtain ⟨q, hq⟩ := hcall .dequeue (hidle (by rw [hpc]; rfl))
    exact ⟨_, by simp only [step, hpc, hq]; rfl⟩
  | dequeuing =>
    rw [hpc] at hph
    rcases CQueue.take_or_step (fun hi => by rw [hi] at hph; cases hph) hw hfree with ⟨r, hr, ht⟩ | ⟨ht, q, hq⟩
    · exact ⟨_, by simp only [step, hpc, ht]; rfl⟩
    · exact ⟨_, by simp only [step, hpc, ht, hq]; rfl⟩
  | stopped => exact absurd hpc hrun

/-- a client inside a call that does not wait returns, goes on, or is kept from the lock by the worker, which goes
on -/
theorem Sound.client_moves (h : Sound w) (hne : w.queue.pc .client ≠ .idle)
    (hw : (w.queue.pc .client).isWaiting = false) : (∃ w', w.clientReturn = some w') ∨
      (w.clientReturn = none ∧ ∃ w', w.clientStep (fun _ => true) = some w') ∨
      ∃ w', w.step (fun _ => true) = some w' := by
  by_cases hlock : w.queue.mutex = some .worker
  · -- the worker has the lock, so it is inside a call and does not wait
    have hholds := (h.mutex .worker).1 hlock
    refine .inr (.inr (h.enabled (fun hstop => ?_) ?_ (by rw [hlock]; decide)))
    · rw [h.idle (by rw [hstop]; rfl)] at hholds
      cases hholds
    · cases hp : w.queue.pc .worker <;> rw [hp] at hholds <;> first | rfl | cases hholds
  · have hfree : ∀ k, w.queue.pc .client = .lock k → w.queue.mutex = none := by
      intro k hpc
      cases hm : w.queue.mutex with
      | none => rfl
      | some t =>
        cases t with
        | worker => exact absurd hm hlock
        | client =>
          have hholds := (h.mutex .client).1 hm
          rw [hpc] at hholds
          cases hholds
    rcases CQueue.take_or_step hne hw hfree with ⟨r, -, ht⟩ | ⟨ht, q, hq⟩
    · exact .inl ⟨_, by simp only [clientReturn, ht]; rfl⟩
    · exact .inr (.inl ⟨by simp only [clientReturn, ht]; rfl, _, by simp only [clientStep, hq]; rfl⟩)

end Worker

end K23Search
