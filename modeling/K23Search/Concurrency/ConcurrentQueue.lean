/-
`qs::concurrent_queue` (include/qs/queue.hpp) under pthread semantics. Every thread is at a point of one of the calls
(`Pc`); a step of a thread runs it to the next point:
- the mutex is held by at most one thread, and `lock` blocks while it is held;
- `pthread_cond_wait` releases the mutex and blocks in one step. A thread that is woken goes back to `lock`, and from
  there to the test of its loop;
- `pthread_cond_signal` wakes any set of waiting threads, of which at least one is waiting if there is one (the set is
  an argument of the step);
- `spurious` wakes a waiting thread without a signal.

There is one condition variable, on which readers of an empty queue and `wait_empty` callers of a non-empty one wait.

Results:
- `mutex_step`, `mutex_call`, `mutex_take`, `mutex_spurious`: the mutex is held exactly by the thread that is between
  `lock` and `unlock`.
-/
import K23Search.Containers.LinkedList
import Mathlib.Data.Fintype.Basic

namespace K23Search

/-! ## Model -/

namespace CQueue

inductive Call (T : Type) where
  | enqueue (data : T)
  | peek
  | dequeue
  | waitEmpty
  | close
deriving DecidableEq, Repr

inductive Ret (T : Type) where
  /-- `previously_empty` -/
  | flag (previouslyEmpty : Bool)
  | ptr (p : Option ℕ)
  /-- the optional returned, and `*empty_out` -/
  | item (x : Option T) (emptyOut : Bool)
  | void
deriving DecidableEq, Repr

inductive Pc (T : Type) where
  | idle
  /-- at `pthread_mutex_lock`, or woken in `pthread_cond_wait` and in need of the mutex -/
  | lock (c : Call T)
  /-- behind the lock, at the test of the loop if there is one -/
  | locked (c : Call T)
  /-- blocked in `pthread_cond_wait` -/
  | waiting (c : Call T)
  /-- at the `pthread_cond_signal` before the unlock -/
  | signalLocked (r : Ret T)
  /-- at `pthread_mutex_unlock`; `sig`: a signal follows -/
  | unlock (sig : Bool) (r : Ret T)
  /-- at the `pthread_cond_signal` after the unlock -/
  | signal (r : Ret T)
  /-- about to return -/
  | done (r : Ret T)
deriving DecidableEq, Repr

/-- the points at which the mutex is held -/
def Pc.holds {T : Type} : Pc T → Bool
  | .locked _ | .signalLocked _ | .unlock _ _ => true
  | _ => false

def Pc.isWaiting {T : Type} : Pc T → Bool
  | .waiting _ => true
  | _ => false

/-- a wake-up that is still to be sent -/
def Pc.signals {T : Type} : Pc T → Bool
  | .signalLocked _ | .unlock true _ | .signal _ => true
  | _ => false

end CQueue

structure CQueue (Tid T : Type) where
  mutex : Option Tid
  closed : Bool
  q : DList T
  pc : Tid → CQueue.Pc T

namespace CQueue

variable {Tid T : Type}

def empty : CQueue Tid T := ⟨none, false, DList.empty, fun _ => .idle⟩

def wakeUp (woken : Tid → Bool) (pc : Tid → Pc T) (u : Tid) : Pc T :=
  match pc u with
  | .waiting call => if woken u then .lock call else .waiting call
  | p => p

theorem wakeUp_holds (woken : Tid → Bool) (pc : Tid → Pc T) (u : Tid) :
    (wakeUp woken pc u).holds = (pc u).holds := by
  unfold wakeUp
  split
  · next h => rw [h]; split <;> rfl
  · rfl

theorem wakeUp_of_not_waiting {woken : Tid → Bool} {pc : Tid → Pc T} {u : Tid} (h : (pc u).isWaiting = false) :
    wakeUp woken pc u = pc u := by
  unfold wakeUp
  split
  · next hw => rw [hw] at h; cases h
  · rfl

variable [DecidableEq Tid]

/-- thread `t` goes to point `p` -/
def goto (c : CQueue Tid T) (t : Tid) (p : Pc T) : CQueue Tid T := { c with pc := Function.update c.pc t p }

@[simp] theorem goto_pc (c : CQueue Tid T) (t : Tid) (p : Pc T) : (c.goto t p).pc t = p := Function.update_self ..

theorem goto_pc_ne (c : CQueue Tid T) {t u : Tid} (h : u ≠ t) (p : Pc T) : (c.goto t p).pc u = c.pc u :=
  Function.update_of_ne h ..

/-- `pthread_cond_wait`, up to its wake-up -/
def block (c : CQueue Tid T) (t : Tid) (call : Call T) : CQueue Tid T :=
  { c.goto t (.waiting call) with mutex := none }

/-- behind the lock -/
def body (c : CQueue Tid T) (t : Tid) : Call T → CQueue Tid T
  | .enqueue data => { c with q := c.q.append data }.goto t (.unlock c.q.isEmpty (.flag c.q.isEmpty))
  | .peek =>
    if c.q.isEmpty && !c.closed then c.block t .peek
    else c.goto t (.unlock false (.ptr c.q.peek))
  | .dequeue =>
    if c.q.isEmpty && !c.closed then c.block t .dequeue
    else if c.q.isEmpty then c.goto t (.unlock false (.item none true))
    else { c with q := c.q.dequeue.2 }.goto t (.signalLocked (.item c.q.dequeue.1 c.q.dequeue.2.isEmpty))
  | .waitEmpty =>
    if !c.q.isEmpty then c.block t .waitEmpty
    else c.goto t (.unlock false .void)
  | .close =>
    if !c.closed then { c with closed := true }.goto t (.signalLocked .void)
    else c.goto t (.unlock false .void)

section Step

variable [Fintype Tid]

/-- the signal wakes a waiting thread if there is one -/
def SignalOk (c : CQueue Tid T) (woken : Tid → Bool) : Prop :=
  (∃ u, (c.pc u).isWaiting = true) → ∃ u, (c.pc u).isWaiting = true ∧ woken u = true

instance (c : CQueue Tid T) (woken : Tid → Bool) : Decidable (c.SignalOk woken) := inferInstanceAs (Decidable (_ → _))

/-- `pthread_cond_signal` -/
def signal (c : CQueue Tid T) (woken : Tid → Bool) : Option (CQueue Tid T) :=
  if c.SignalOk woken then some { c with pc := wakeUp woken c.pc } else none

def call (c : CQueue Tid T) (t : Tid) (call : Call T) : Option (CQueue Tid T) :=
  match c.pc t with
  | .idle => some (c.goto t (.lock call))
  | _ => none

/-- a step of thread `t` inside its call -/
def step (c : CQueue Tid T) (t : Tid) (woken : Tid → Bool) : Option (CQueue Tid T) :=
  match c.pc t with
  | .lock call => if c.mutex = none then some { c.goto t (.locked call) with mutex := some t } else none
  | .locked call => some (c.body t call)
  | .signalLocked r => (c.signal woken).map fun c => c.goto t (.unlock false r)
  | .unlock sig r => some { c.goto t (if sig then .signal r else .done r) with mutex := none }
  | .signal r => (c.signal woken).map fun c => c.goto t (.done r)
  | _ => none

/-- return from the call -/
def take (c : CQueue Tid T) (t : Tid) : Option (Ret T × CQueue Tid T) :=
  match c.pc t with
  | .done r => some (r, c.goto t .idle)
  | _ => none

def spurious (c : CQueue Tid T) (t : Tid) : Option (CQueue Tid T) :=
  match c.pc t with
  | .waiting call => some (c.goto t (.lock call))
  | _ => none

end Step

/-! ## What a step can do -/

section Cases

variable [Fintype Tid] {c c' : CQueue Tid T} {t : Tid} {woken : Tid → Bool}

omit [DecidableEq Tid] in
theorem signal_some (h : c.signal woken = some c') : c.SignalOk woken ∧ c' = { c with pc := wakeUp woken c.pc } := by
  unfold signal at h
  split at h
  · next hok =>
    cases h
    exact ⟨hok, rfl⟩
  · cases h

theorem step_cases (h : c.step t woken = some c') :
    (∃ k, c.pc t = .lock k ∧ c.mutex = none ∧ c' = { c.goto t (.locked k) with mutex := some t }) ∨
    (∃ k, c.pc t = .locked k ∧ c' = c.body t k) ∨
    (∃ r, c.pc t = .signalLocked r ∧ c.SignalOk woken ∧
      c' = goto { c with pc := wakeUp woken c.pc } t (.unlock false r)) ∨
    (∃ sig r, c.pc t = .unlock sig r ∧ c' = { c.goto t (if sig then .signal r else .done r) with mutex := none }) ∨
    (∃ r, c.pc t = .signal r ∧ c.SignalOk woken ∧ c' = goto { c with pc := wakeUp woken c.pc } t (.done r)) := by
  unfold step at h
  split at h
  · next k hpc =>
    split at h
    · next hfree =>
      cases h
      exact .inl ⟨k, hpc, hfree, rfl⟩
    · cases h
  · next k hpc =>
    cases h
    exact .inr (.inl ⟨k, hpc, rfl⟩)
  · next r hpc =>
    obtain ⟨d, hd, rfl⟩ := Option.map_eq_some_iff.1 h
    obtain ⟨hok, rfl⟩ := signal_some hd
    exact .inr (.inr (.inl ⟨r, hpc, hok, rfl⟩))
  · next sig r hpc =>
    cases h
    exact .inr (.inr (.inr (.inl ⟨sig, r, hpc, rfl⟩)))
  · next r hpc =>
    obtain ⟨d, hd, rfl⟩ := Option.map_eq_some_iff.1 h
    obtain ⟨hok, rfl⟩ := signal_some hd
    exact .inr (.inr (.inr (.inr ⟨r, hpc, hok, rfl⟩)))
  · cases h

omit [Fintype Tid] in
theorem call_some {k : Call T} (h : c.call t k = some c') : c.pc t = .idle ∧ c' = c.goto t (.lock k) := by
  unfold call at h
  split at h
  · next hpc =>
    cases h
    exact ⟨hpc, rfl⟩
  · cases h

omit [Fintype Tid] in
theorem take_some {r : Ret T} (h : c.take t = some (r, c')) : c.pc t = .done r ∧ c' = c.goto t .idle := by
  unfold take at h
  split at h
  · next hpc =>
    cases h
    exact ⟨hpc, rfl⟩
  · cases h

omit [Fintype Tid] in
theorem spurious_some (h : c.spurious t = some c') : ∃ k, c.pc t = .waiting k ∧ c' = c.goto t (.lock k) := by
  unfold spurious at h
  split at h
  · next k hpc =>
    cases h
    exact ⟨k, hpc, rfl⟩
  · cases h

/-- the point behind a step that does not look at the list -/
def Pc.next : Pc T → Option (Pc T)
  | .lock k => some (.locked k)
  | .signalLocked r => some (.unlock false r)
  | .unlock sig r => some (if sig then .signal r else .done r)
  | .signal r => some (.done r)
  | _ => none

/-- a step runs the body of the call, or leaves the list alone -/
theorem step_effect (h : c.step t woken = some c') :
    (∃ k, c.pc t = .locked k ∧ c' = c.body t k) ∨
      ((c.pc t).next = some (c'.pc t) ∧ c'.q = c.q ∧ c'.closed = c.closed) := by
  rcases step_cases h with ⟨k, hpc, -, rfl⟩ | ⟨k, hpc, rfl⟩ | ⟨r, hpc, -, rfl⟩ | ⟨sig, r, hpc, rfl⟩ | ⟨r, hpc, -, rfl⟩
  · exact .inr ⟨by simp [Pc.next, hpc], rfl, rfl⟩
  · exact .inl ⟨k, hpc, rfl⟩
  · exact .inr ⟨by simp [Pc.next, hpc], rfl, rfl⟩
  · exact .inr ⟨by simp [Pc.next, hpc], rfl, rfl⟩
  · exact .inr ⟨by simp [Pc.next, hpc], rfl, rfl⟩

omit [Fintype Tid] in
theorem body_pc_ne (c : CQueue Tid T) {t u : Tid} (hu : u ≠ t) (k : Call T) : (c.body t k).pc u = c.pc u := by
  cases k <;> simp only [body, block] <;> (try split_ifs) <;> exact goto_pc_ne _ hu _

omit [Fintype Tid] in
theorem peek_empty (ho : c.closed = false) (h : c.q.nodes = []) : c.body t .peek = c.block t .peek := by
  simp only [body, ho, Bool.not_false, Bool.and_true]
  rw [if_pos ((DList.isEmpty_iff _).2 h)]

omit [Fintype Tid] in
theorem peek_cons {x : ℕ × T} {rest : List (ℕ × T)} (h : c.q.nodes = x :: rest) :
    c.body t .peek = c.goto t (.unlock false (.ptr (some x.1))) := by
  have hne : c.q.isEmpty = false := by simp [DList.isEmpty_eq_false, h]
  simp only [body, hne, Bool.false_and, Bool.false_eq_true, if_false, c.q.peek_eq, h, List.map_cons, List.head?_cons]

omit [Fintype Tid] in
theorem dequeue_cons {x : ℕ × T} {rest : List (ℕ × T)} (h : c.q.nodes = x :: rest) :
    ∃ d e, d.nodes = rest ∧ c.body t .dequeue = goto { c with q := d } t (.signalLocked (.item (some x.2) e)) := by
  have hne : c.q.isEmpty = false := by simp [DList.isEmpty_eq_false, h]
  obtain ⟨hfst, hrest, -⟩ := DList.dequeue_cons h
  refine ⟨c.q.dequeue.2, c.q.dequeue.2.isEmpty, hrest, ?_⟩
  simp only [body, hne, Bool.false_and, Bool.false_eq_true, if_false, hfst]

/-- another thread stays where it is, or is woken -/
theorem step_other (h : c.step t woken = some c') {u : Tid} (hu : u ≠ t) :
    c'.pc u = c.pc u ∨ ∃ k, c.pc u = .waiting k ∧ c'.pc u = .lock k := by
  have hwake : wakeUp woken c.pc u = c.pc u ∨ ∃ k, c.pc u = .waiting k ∧ wakeUp woken c.pc u = .lock k := by
    unfold wakeUp
    split
    · next k hpc =>
      split
      · exact .inr ⟨k, hpc, rfl⟩
      · exact .inl hpc.symm
    · exact .inl rfl
  rcases step_cases h with ⟨k, -, -, rfl⟩ | ⟨k, -, rfl⟩ | ⟨r, -, -, rfl⟩ | ⟨sig, r, -, rfl⟩ | ⟨r, -, -, rfl⟩
  · exact .inl (goto_pc_ne c hu _)
  · exact .inl (body_pc_ne c hu k)
  · rw [goto_pc_ne _ hu]
    exact hwake
  · exact .inl (goto_pc_ne c hu _)
  · rw [goto_pc_ne _ hu]
    exact hwake

end Cases

/-! ## Mutual exclusion -/

/-- the mutex is held by the thread that is between lock and unlock -/
def MutexInv (c : CQueue Tid T) : Prop := ∀ t, c.mutex = some t ↔ (c.pc t).holds = true

theorem mutex_goto {c : CQueue Tid T} (h : MutexInv c) {t : Tid} {p : Pc T} (hp : p.holds = (c.pc t).holds) :
    MutexInv (c.goto t p) := by
  intro u
  by_cases hu : u = t
  · subst hu
    rw [goto_pc, hp]
    exact h u
  · rw [goto_pc_ne c hu]
    exact h u

theorem mutex_acquire {c : CQueue Tid T} (h : MutexInv c) (hfree : c.mutex = none) (t : Tid) {p : Pc T}
    (hp : p.holds = true) : MutexInv { c.goto t p with mutex := some t } := by
  intro u
  by_cases hu : u = t
  · subst hu
    simp [hp]
  · have hne : ¬ some t = some u := fun heq => hu (Option.some.inj heq).symm
    have hold := h u
    rw [hfree] at hold
    simp only [hne, false_iff]
    rw [goto_pc_ne c hu, ← hold]
    simp

theorem mutex_release {c : CQueue Tid T} (h : MutexInv c) {t : Tid} (ht : (c.pc t).holds = true) {p : Pc T}
    (hp : p.holds = false) : MutexInv { c.goto t p with mutex := none } := by
  intro u
  by_cases hu : u = t
  · subst hu
    simp [hp]
  · have hold := h u
    rw [(h t).2 ht] at hold
    have hne : ¬ some t = some u := fun heq => hu (Option.some.inj heq).symm
    simp only [reduceCtorEq, false_iff]
    rw [goto_pc_ne c hu, ← hold]
    exact hne

theorem mutex_wakeUp {c : CQueue Tid T} (h : MutexInv c) (woken : Tid → Bool) {t : Tid} {p : Pc T}
    (hp : p.holds = (c.pc t).holds) : MutexInv (goto { c with pc := wakeUp woken c.pc } t p) := by
  refine mutex_goto (c := { c with pc := wakeUp woken c.pc }) (fun u => ?_) (by rw [hp, wakeUp_holds])
  simp only [wakeUp_holds]
  exact h u

theorem mutex_body {c : CQueue Tid T} (h : MutexInv c) {t : Tid} (ht : (c.pc t).holds = true) (call : Call T) :
    MutexInv (c.body t call) := by
  have hgoto : ∀ (c' : CQueue Tid T) (p : Pc T), c'.mutex = c.mutex → c'.pc = c.pc → p.holds = true →
      MutexInv (c'.goto t p) := fun c' p hm hpc hp =>
    mutex_goto (fun u => by rw [hm, hpc]; exact h u) (by rw [hpc, ht, hp])
  cases call with
  | enqueue data => exact hgoto _ _ rfl rfl rfl
  | peek =>
    simp only [body]
    split
    · exact mutex_release h ht rfl
    · exact hgoto _ _ rfl rfl rfl
  | dequeue =>
    simp only [body]
    split_ifs
    · exact mutex_release h ht rfl
    · exact hgoto _ _ rfl rfl rfl
    · exact hgoto _ _ rfl rfl rfl
  | waitEmpty =>
    simp only [body]
    split
    · exact mutex_release h ht rfl
    · exact hgoto _ _ rfl rfl rfl
  | close =>
    simp only [body]
    split
    · exact hgoto _ _ rfl rfl rfl
    · exact hgoto _ _ rfl rfl rfl

theorem mutex_step [Fintype Tid] {c c' : CQueue Tid T} {t : Tid} {woken : Tid → Bool} (h : MutexInv c)
    (hs : c.step t woken = some c') : MutexInv c' := by
  rcases step_cases hs with ⟨k, hpc, hfree, rfl⟩ | ⟨k, hpc, rfl⟩ | ⟨r, hpc, -, rfl⟩ | ⟨sig, r, hpc, rfl⟩ |
    ⟨r, hpc, -, rfl⟩
  · exact mutex_acquire h hfree t rfl
  · exact mutex_body h (by rw [hpc]; rfl) k
  · exact mutex_wakeUp h woken (by rw [hpc]; rfl)
  · exact mutex_release h (by rw [hpc]; rfl) (by cases sig <;> rfl)
  · exact mutex_wakeUp h woken (by rw [hpc]; rfl)

theorem mutex_call {c c' : CQueue Tid T} {t : Tid} {k : Call T} (h : MutexInv c) (hs : c.call t k = some c') :
    MutexInv c' := by
  obtain ⟨hpc, rfl⟩ := call_some hs
  exact mutex_goto h (by rw [hpc]; rfl)

theorem mutex_take {c c' : CQueue Tid T} {t : Tid} {r : Ret T} (h : MutexInv c) (hs : c.take t = some (r, c')) :
    MutexInv c' := by
  obtain ⟨hpc, rfl⟩ := take_some hs
  exact mutex_goto h (by rw [hpc]; rfl)

theorem mutex_spurious {c c' : CQueue Tid T} {t : Tid} (h : MutexInv c) (hs : c.spurious t = some c') :
    MutexInv c' := by
  obtain ⟨k, hpc, rfl⟩ := spurious_some hs
  exact mutex_goto h (by rw [hpc]; rfl)

end CQueue

end K23Search
