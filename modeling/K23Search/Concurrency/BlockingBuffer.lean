/-
`qs::concurrent_cyclic_buffer` (include/qs/cyclic_buffer.hpp), with any number of threads.

`push` takes `write_lock`, tests once whether the buffer is full, and if so waits on `is_full_cond`; what it does after
the wait is one step. `pop` is one step. It holds another lock and signals if the buffer was full. A wake-up may be
spurious. Errors of the pthread functions are left out. `none`: the action is not enabled (for a capacity from 1 to
`2 ^ 64 - 1` cells the operations on the ring are defined).

- `Act`, `act`: the steps of all threads;
- `RoomAfterWait`: the guard on a step: a thread that has waited does not store into a full buffer.

Results:
- `inv_act`: with the guard, what was popped and the content are what was pushed;
- `run_lossless_iff`: a run is `Lossless` exactly when its steps meet the guard;
- `slot_taken`: without it, a thread that was woken up finds its slot taken.
-/
import K23Search.Containers.CyclicBuffer
import Mathlib.Data.Fintype.Basic

namespace K23Search.BlockingBuffer

open Lib CyclicBuffer

variable {Tid T : Type}

/-! ## Model -/

/-- where a thread is in `push(elem)` -/
inductive Pc (T : Type) where
  | idle
  /-- at `pthread_mutex_lock(&write_lock)` -/
  | lock (elem : T)
  /-- at `is_full()` -/
  | check (elem : T)
  /-- the buffer was full: at `pthread_cond_wait` -/
  | block (elem : T)
  /-- blocked on `is_full_cond`, without the lock -/
  | waiting (elem : T)
  /-- woken up: `pthread_cond_wait` takes the lock again -/
  | relock (elem : T)
  /-- at `cb::push(elem)`; `waited` tells how it came there -/
  | store (elem : T) (waited : Bool)
deriving DecidableEq

/-- the thread holds `write_lock` -/
def Pc.holds : Pc T → Bool
  | .check _ | .block _ | .store _ _ => true
  | _ => false

def Pc.isWaiting : Pc T → Bool
  | .waiting _ => true
  | _ => false

/-- behind a wake-up -/
def Pc.woken : Pc T → Pc T
  | .waiting elem => .relock elem
  | p => p

structure State (Tid T : Type) where
  buf : CyclicBuffer T
  writeLock : Option Tid
  pc : Tid → Pc T
  /-- what was pushed, in the order of the stores -/
  pushed : List T
  /-- what was popped -/
  popped : List T

def init (size : ℕ) : State Tid T := ⟨make size, none, fun _ => .idle, [], []⟩

inductive Act (Tid T : Type) where
  | call (t : Tid) (elem : T)
  | lock (t : Tid)
  | check (t : Tid)
  | block (t : Tid)
  | spurious (t : Tid)
  | relock (t : Tid)
  | store (t : Tid)
  /-- `pop()`, with the threads that its signal wakes up -/
  | pop (t : Tid) (woken : Tid → Bool)

section Steps

variable [DecidableEq Tid] [Fintype Tid]

/-- `pthread_cond_signal` wakes waiting threads, at least one if there is one; without it nobody is woken up -/
def SignalOk (signal : Bool) (s : State Tid T) (woken : Tid → Bool) : Prop :=
  (∀ u, woken u = true → signal = true ∧ (s.pc u).isWaiting = true) ∧
    (signal = true → (∃ u, (s.pc u).isWaiting = true) → ∃ u, woken u = true)

instance (signal : Bool) (s : State Tid T) (woken : Tid → Bool) : Decidable (SignalOk signal s woken) :=
  inferInstanceAs (Decidable (_ ∧ _))

/-- one step of one thread -/
def act (s : State Tid T) : Act Tid T → Option (State Tid T)
  | .call t elem =>
    match s.pc t with
    | .idle => some { s with pc := Function.update s.pc t (.lock elem) }
    | _ => none
  | .lock t =>
    match s.pc t, s.writeLock with
    | .lock elem, none => some { s with writeLock := some t, pc := Function.update s.pc t (.check elem) }
    | _, _ => none
  | .check t =>
    match s.pc t with
    | .check elem => s.buf.isFull.map fun full =>
      { s with pc := Function.update s.pc t (if full then .block elem else .store elem false) }
    | _ => none
  | .block t =>
    match s.pc t with
    | .block elem => some { s with writeLock := none, pc := Function.update s.pc t (.waiting elem) }
    | _ => none
  | .spurious t =>
    match s.pc t with
    | .waiting elem => some { s with pc := Function.update s.pc t (.relock elem) }
    | _ => none
  | .relock t =>
    match s.pc t, s.writeLock with
    | .relock elem, none => some { s with writeLock := some t, pc := Function.update s.pc t (.store elem true) }
    | _, _ => none
  | .store t =>
    match s.pc t with
    | .store elem _ => (s.buf.push elem).map fun buf =>
      { s with buf := buf, writeLock := none, pc := Function.update s.pc t .idle, pushed := s.pushed ++ [elem] }
    | _ => none
  | .pop t woken =>
    match s.pc t with
    | .idle => s.buf.isFull.bind fun shouldSignal => s.buf.pop.bind fun r =>
      if SignalOk shouldSignal s woken then
        some { s with
          buf := r.2
          pc := fun u => if woken u then (s.pc u).woken else s.pc u
          popped := s.popped ++ r.1.toList }
      else none
    | _ => none

end Steps

/-! ## Properties -/

/-- what was popped and then the content are what was pushed -/
def Fifo (n : ℕ) (s : State Tid T) : Prop := ∃ xs, s.buf.Represents n xs ∧ s.popped ++ xs = s.pushed

/-- all through the run nothing is lost, and no store finds the buffer full -/
def Lossless [DecidableEq Tid] [Fintype Tid] (n : ℕ) (acts : List (Act Tid T)) : Prop :=
  ∀ pre s, pre <+: acts → run act (init n) pre = some s →
    Fifo n s ∧ ∀ t elem waited, pre ++ [.store t] <+: acts → s.pc t = .store elem waited → s.buf.isFull = some false

/-- a thread that has waited stores only if the buffer is not full -/
def RoomAfterWait (s : State Tid T) : Act Tid T → Prop
  | .store t => ∀ elem, s.pc t = .store elem true → s.buf.isFull = some false
  | _ => True

/-! ## The invariant -/

/-- the content is `xs`, one thread at most is behind the lock, and one that did not wait has seen room that is still
there -/
structure Inv (n : ℕ) (s : State Tid T) (xs : List T) : Prop where
  content : s.buf.Represents n xs
  order : s.popped ++ xs = s.pushed
  owner : ∀ t, (s.pc t).holds = true → s.writeLock = some t
  room : ∀ t elem, s.pc t = .store elem false → xs.length < n

variable {n : ℕ} {s s' : State Tid T} {xs : List T} {a : Act Tid T}

theorem inv_init (hn : n + 1 < 2 ^ 64) : Inv n (init n : State Tid T) [] where
  content := represents_make hn
  order := rfl
  owner := by
    intro t h
    cases h
  room := by
    intro t elem h
    cases h

/-- who does not hold the lock while `t` does -/
theorem Inv.alone (h : Inv n s xs) {t : Tid} (ht : (s.pc t).holds = true) {lock : Option Tid} (u : Tid) (hut : u ≠ t)
    (hu : (s.pc u).holds = true) : lock = some u := by
  have hsame := (h.owner t ht).symm.trans (h.owner u hu)
  exact absurd (Option.some.inj hsame).symm hut

/-- nobody holds a free lock -/
theorem Inv.free (h : Inv n s xs) (hlock : s.writeLock = none) {lock : Option Tid} (u : Tid)
    (hu : (s.pc u).holds = true) : lock = some u := by
  rw [h.owner u hu] at hlock
  cases hlock

theorem Pc.holds_woken (p : Pc T) (h : p.woken.holds = true) : p.holds = true := by
  cases p <;> exact h

theorem Pc.woken_store {p : Pc T} {elem : T} {waited : Bool} (h : p.woken = .store elem waited) :
    p = .store elem waited := by
  cases p with
  | waiting elem => cases h
  | _ => exact h

theorem Inv.pop (h : Inv n s xs) (woken : Tid → Bool) :
    ∃ buf, s.buf.pop = some (xs.head?, buf) ∧ Inv n
      { s with buf := buf, pc := fun u => if woken u then (s.pc u).woken else s.pc u,
               popped := s.popped ++ xs.head?.toList } xs.tail := by
  obtain ⟨buf, hpop, hrep, -⟩ := h.content.pop
  refine ⟨buf, hpop, hrep, ?_, ?_, ?_⟩
  · change (s.popped ++ xs.head?.toList) ++ xs.tail = s.pushed
    rw [List.append_assoc, ← h.order]
    cases xs <;> rfl
  · intro u hu
    change (if woken u then (s.pc u).woken else s.pc u).holds = true at hu
    apply h.owner u
    split at hu
    · exact (s.pc u).holds_woken hu
    · exact hu
  · intro u elem hu
    change (if woken u then (s.pc u).woken else s.pc u) = _ at hu
    have hpc : s.pc u = .store elem false := by
      split at hu
      · exact Pc.woken_store hu
      · exact hu
    have := h.room u elem hpc
    rw [List.length_tail]
    omega

variable [DecidableEq Tid]

/-- a step that moves thread `t` to `p` -/
theorem inv_update {t : Tid} {p : Pc T} {xs' : List T} (hpc : s'.pc = Function.update s.pc t p)
    (hcontent : s'.buf.Represents n xs') (horder : s'.popped ++ xs' = s'.pushed)
    (hown : p.holds = true → s'.writeLock = some t)
    (hothers : ∀ u, u ≠ t → (s.pc u).holds = true → s'.writeLock = some u)
    (hroom : ∀ elem, p = .store elem false → xs'.length < n)
    (hrooms : ∀ u, u ≠ t → ∀ elem, s.pc u = .store elem false → xs'.length < n) : Inv n s' xs' where
  content := hcontent
  order := horder
  owner := by
    intro u hu
    rw [hpc] at hu
    by_cases hut : u = t
    · subst hut
      rw [Function.update_self] at hu
      exact hown hu
    · rw [Function.update_of_ne hut] at hu
      exact hothers u hut hu
  room := by
    intro u elem hu
    rw [hpc] at hu
    by_cases hut : u = t
    · subst hut
      rw [Function.update_self] at hu
      exact hroom elem hu
    · rw [Function.update_of_ne hut] at hu
      exact hrooms u hut elem hu

/-- and leaves the buffer alone -/
theorem Inv.move (h : Inv n s xs) {t : Tid} {p : Pc T} {lock : Option Tid} (hown : p.holds = true → lock = some t)
    (hothers : ∀ u, u ≠ t → (s.pc u).holds = true → lock = some u)
    (hroom : ∀ elem, p = .store elem false → xs.length < n) :
    Inv n { s with writeLock := lock, pc := Function.update s.pc t p } xs :=
  inv_update rfl h.content h.order hown hothers hroom fun u _ elem hu => h.room u elem hu

theorem Inv.store (h : Inv n s xs) {t : Tid} {elem : T} {waited : Bool} (hpc : s.pc t = .store elem waited)
    (hlt : xs.length < n) :
    ∃ buf, s.buf.push elem = some buf ∧ Inv n
      { s with buf := buf, writeLock := none, pc := Function.update s.pc t .idle, pushed := s.pushed ++ [elem] }
      (xs ++ [elem]) := by
  obtain ⟨buf, hpush, hrep, -⟩ := h.content.push elem
  rw [lossy, if_pos hlt] at hrep
  have hholds : (s.pc t).holds = true := by rw [hpc]; rfl
  refine ⟨buf, hpush, inv_update rfl hrep ?_ ?_ ?_ ?_ ?_⟩
  · change s.popped ++ (xs ++ [elem]) = s.pushed ++ [elem]
    rw [← List.append_assoc, h.order]
  · intro hp
    cases hp
  · intro u hut hu
    exact h.alone hholds u hut hu
  · intro x hp
    cases hp
  · intro u hut x hu
    -- two threads would hold the lock
    have hown : (none : Option Tid) = some u := h.alone hholds u hut (by rw [hu]; rfl)
    cases hown

variable [Fintype Tid]

/-- **One step** that meets the guard keeps the invariant. -/
theorem inv_act (h : Inv n s xs) (hg : RoomAfterWait s a) (hs : act s a = some s') : ∃ xs', Inv n s' xs' := by
  cases a with
  | call t elem =>
    simp only [act] at hs
    split at hs
    · next hpc =>
      cases hs
      exact ⟨xs, h.move (by intro hp; cases hp) (fun u _ hu => h.owner u hu) (by intro x hp; cases hp)⟩
    · cases hs
  | lock t =>
    simp only [act] at hs
    split at hs
    · next elem hpc hlock =>
      cases hs
      exact ⟨xs, h.move (fun _ => rfl) (fun u _ hu => h.free hlock u hu) (by intro x hp; cases hp)⟩
    · cases hs
  | check t =>
    simp only [act] at hs
    split at hs
    · next elem hpc =>
      rw [h.content.isFull, Option.map_some, Option.some.injEq] at hs
      subst hs
      have hown : s.writeLock = some t := h.owner t (by rw [hpc]; rfl)
      refine ⟨xs, h.move (fun _ => hown) (fun u _ hu => h.owner u hu) ?_⟩
      intro x hp
      split at hp
      · cases hp
      · next hfull =>
        rw [decide_eq_true_eq] at hfull
        exact Nat.lt_of_le_of_ne h.content.length_le hfull
    · cases hs
  | block t =>
    simp only [act] at hs
    split at hs
    · next elem hpc =>
      cases hs
      refine ⟨xs, h.move (by intro hp; cases hp) (fun u hut hu => ?_) (by intro x hp; cases hp)⟩
      exact h.alone (by rw [hpc]; rfl) u hut hu
    · cases hs
  | spurious t =>
    simp only [act] at hs
    split at hs
    · next elem hpc =>
      cases hs
      exact ⟨xs, h.move (by intro hp; cases hp) (fun u _ hu => h.owner u hu) (by intro x hp; cases hp)⟩
    · cases hs
  | relock t =>
    simp only [act] at hs
    split at hs
    · next elem hpc hlock =>
      cases hs
      exact ⟨xs, h.move (fun _ => rfl) (fun u _ hu => h.free hlock u hu) (by intro x hp; cases hp)⟩
    · cases hs
  | store t =>
    simp only [act] at hs
    split at hs
    · next elem waited hpc =>
      have hlt : xs.length < n := by
        cases waited with
        | false => exact h.room t elem hpc
        | true =>
          have hfull := hg elem hpc
          rw [h.content.isFull, Option.some.injEq, decide_eq_false_iff_not] at hfull
          exact Nat.lt_of_le_of_ne h.content.length_le hfull
      obtain ⟨buf, hpush, hinv⟩ := h.store hpc hlt
      rw [hpush, Option.map_some, Option.some.injEq] at hs
      exact ⟨_, hs ▸ hinv⟩
    · cases hs
  | pop t woken =>
    simp only [act] at hs
    split at hs
    · next hpc =>
      obtain ⟨buf, hpop, hinv⟩ := h.pop woken
      rw [h.content.isFull, hpop, Option.bind_some, Option.bind_some] at hs
      split at hs
      · rw [Option.some.injEq] at hs
        exact ⟨_, hs ▸ hinv⟩
      · cases hs
    · cases hs

/-! ## Runs -/

variable {acts : List (Act Tid T)}

/-- a run whose steps meet the guard keeps the invariant -/
theorem inv_run (hn : n + 1 < 2 ^ 64) (hm : Meets act (init n) (fun _ => RoomAfterWait) acts)
    (hr : run act (init n) acts = some s) : ∃ xs, Inv n s xs := by
  apply run_induction (I := fun _ s => ∃ xs, Inv n s xs) ⟨[], inv_init hn⟩ _ hm hr
  intro pre u a u' _ hg hi hs
  obtain ⟨xs, hinv⟩ := hi
  exact inv_act hinv hg hs

/-- **Blocking.** A run loses nothing and stores into no full buffer exactly when no thread that has waited stores while
the buffer is full. -/
theorem run_lossless_iff (hn : n + 1 < 2 ^ 64) (acts : List (Act Tid T)) :
    Lossless n acts ↔ Meets act (init n) (fun _ => RoomAfterWait) acts := by
  constructor
  · intro h pre a post u hu hr
    cases a with
    | store t =>
      intro elem hpc
      have hpre : pre <+: acts := ⟨Act.store t :: post, hu.symm⟩
      exact (h pre u hpre hr).2 t elem true ⟨post, by simp [hu]⟩ hpc
    | _ => trivial
  · intro h pre s hpre hr
    obtain ⟨xs, hinv⟩ := inv_run hn (h.initial hpre) hr
    refine ⟨⟨xs, hinv.content, hinv.order⟩, ?_⟩
    intro t elem waited hstore hpc
    cases waited with
    | false =>
      rw [hinv.content.isFull, Option.some.injEq, decide_eq_false_iff_not]
      exact Nat.ne_of_lt (hinv.room t elem hpc)
    | true =>
      obtain ⟨post, hpost⟩ := hstore
      exact h pre (.store t) post s (by rw [← hpost]; simp) hr elem hpc

/-- a thread waits on a buffer of one element until it is popped -/
theorem run_lossless_handover :
    let acts : List (Act (Fin 2) ℕ) := [.call 0 1, .lock 0, .check 0, .store 0, .call 0 2, .lock 0, .check 0, .block 0,
      .pop 1 (· == 0), .relock 0, .store 0]
    1 + 1 < 2 ^ 64 ∧ (Lossless 1 acts ↔ Meets act (init 1) (fun _ => RoomAfterWait) acts) :=
  ⟨by decide, run_lossless_iff (by decide) _⟩

/-- thread 0 waits for room; it is woken up by a pop, but thread 2 stores first -/
theorem slot_taken :
    ¬Lossless 1 ([.call 1 1, .lock 1, .check 1, .store 1, .call 0 2, .lock 0, .check 0, .block 0, .pop 1 (· == 0),
      .call 2 3, .lock 2, .check 2, .store 2, .relock 0, .store 0] : List (Act (Fin 3) ℕ)) := by
  intro h
  obtain ⟨s, hrun, hpopped, hpushed⟩ : ∃ s : State (Fin 3) ℕ, run act (init 1) [.call 1 1, .lock 1, .check 1, .store 1,
      .call 0 2, .lock 0, .check 0, .block 0, .pop 1 (· == 0), .call 2 3, .lock 2, .check 2, .store 2, .relock 0,
      .store 0] = some s ∧ s.popped = [1] ∧ s.pushed = [1, 3, 2] := ⟨_, rfl, rfl, rfl⟩
  obtain ⟨⟨xs, hrep, horder⟩, -⟩ := h _ s (List.prefix_refl _) hrun
  rw [hpopped, hpushed, List.singleton_append, List.cons.injEq] at horder
  have hle := hrep.length_le
  rw [horder.2] at hle
  exact absurd hle (by decide)

end K23Search.BlockingBuffer
