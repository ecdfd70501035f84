/-
Wake-ups in `qs::concurrent_queue` (include/qs/queue.hpp), with any number of threads in any calls.

- `Act`, `act`: the steps of all threads.
- `Pc.due`: a call in progress that has a signal still to send, given whether the queue is closed and empty.
- `Held R`: a reader is blocked in a state of the queue for which `R` says that it need not be.
- `Heeded R`: the guard on a run. When a signal is sent in a `Held R` state, another one is still due, or it wakes a
  thread that sends the next one, or it wakes all blocked readers.

Results:
- `heard_act`: with `Heeded R`, in a `Held R` state a signal is due;
- `close_releases`: with `Heeded`, no reader is left blocked on a closed queue;
- `two_readers_stranded`: without it, `close` leaves one of two readers blocked.
-/
import K23Search.Concurrency.ConcurrentQueue
import K23Search.Lib.Run
import Mathlib.Data.Fintype.Option

namespace K23Search.CQueue

open Lib

variable {Tid T : Type}

/-! ## The steps of all threads -/

inductive Act (Tid T : Type) where
  | call (t : Tid) (k : Call T)
  | step (t : Tid) (woken : Tid → Bool)
  | ret (t : Tid)
  | spurious (t : Tid)

def act [DecidableEq Tid] [Fintype Tid] (c : CQueue Tid T) : Act Tid T → Option (CQueue Tid T)
  | .call t k => c.call t k
  | .step t woken => c.step t woken
  | .ret t => (c.take t).map Prod.snd
  | .spurious t => c.spurious t

/-! ## Signals to come -/

/-- the calls that wait for something to read -/
def Call.reads : Call T → Bool
  | .peek | .dequeue => true
  | _ => false

/-- the call will send a signal if its critical section finds the queue like this -/
def Call.wakes (closed empty : Bool) : Call T → Bool
  | .enqueue _ => empty
  | .dequeue => !empty
  | .close => !closed
  | _ => false

/-- a signal is still to be sent by the call in progress -/
def Pc.due (closed empty : Bool) : Pc T → Bool
  | .lock k | .locked k => k.wakes closed empty
  | p => p.signals

/-- a reader is blocked on the condition variable -/
def Pc.reader : Pc T → Bool
  | .waiting k => k.reads
  | _ => false

/-- behind a wake-up -/
def Pc.woken : Pc T → Pc T
  | .waiting k => .lock k
  | p => p

/-- at a `pthread_cond_signal` -/
def Pc.sends : Pc T → Bool
  | .signalLocked _ | .signal _ => true
  | _ => false

theorem Pc.waiting_of_reader {p : Pc T} (h : p.reader = true) : p.isWaiting = true := by
  cases p <;> first | rfl | cases h

/-- a call in progress will send a signal -/
def Due (c : CQueue Tid T) : Prop := ∃ t, (c.pc t).due c.closed c.q.isEmpty = true

/-- a reader is blocked, and `R` (of whether the queue is closed and empty) says that it need not be -/
def Held (R : Bool → Bool → Prop) (c : CQueue Tid T) : Prop :=
  (∃ t, (c.pc t).reader = true) ∧ R c.closed c.q.isEmpty

def Heard (R : Bool → Bool → Prop) (c : CQueue Tid T) : Prop := c.Held R → c.Due

/-- the signal with which thread `t` wakes the threads `woken` is not lost: another one is due, or one of them will send
the next, or they are all the blocked readers -/
def Kept (c : CQueue Tid T) (t : Tid) (woken : Tid → Bool) : Prop :=
  (∃ u, u ≠ t ∧ (c.pc u).due c.closed c.q.isEmpty = true) ∨
    (∃ v, (c.pc v).isWaiting = true ∧ woken v = true ∧ (c.pc v).woken.due c.closed c.q.isEmpty = true) ∨
    ∀ u, (c.pc u).reader = true → woken u = true

/-- the guard on a step: a signal sent while a reader is blocked for no reason is not lost -/
def Heeded (R : Bool → Bool → Prop) (c : CQueue Tid T) : Act Tid T → Prop
  | .step t woken => (c.pc t).sends = true → c.Held R → c.Kept t woken
  | _ => True

section Steps

variable [DecidableEq Tid] [Fintype Tid] {R : Bool → Bool → Prop} {c c' : CQueue Tid T} {a : Act Tid T}

/-- what a step can do: it leaves the queue and the other threads alone, runs a critical section, or sends a signal -/
theorem act_cases (h : c.act a = some c') :
    (∃ t p, c'.q = c.q ∧ c'.closed = c.closed ∧ c'.pc = Function.update c.pc t p ∧ p.isWaiting = false ∧
      ∀ closed empty, (c.pc t).due closed empty = true → p.due closed empty = true) ∨
    (∃ t k, c.pc t = .locked k ∧ c' = c.body t k) ∨
    (∃ t woken p, a = .step t woken ∧ (c.pc t).sends = true ∧ c.SignalOk woken ∧ c'.q = c.q ∧ c'.closed = c.closed ∧
      c'.pc = Function.update (wakeUp woken c.pc) t p ∧ p.isWaiting = false) := by
  cases a with
  | call t k =>
    obtain ⟨hpc, rfl⟩ := call_some h
    exact .inl ⟨t, .lock k, rfl, rfl, rfl, rfl, by simp [hpc, Pc.due, Pc.signals]⟩
  | step t woken =>
    rcases step_cases h with ⟨k, hpc, -, rfl⟩ | ⟨k, hpc, rfl⟩ | ⟨r, hpc, hok, rfl⟩ | ⟨sig, r, hpc, rfl⟩ |
      ⟨r, hpc, hok, rfl⟩
    · exact .inl ⟨t, .locked k, rfl, rfl, rfl, rfl, by simp [hpc, Pc.due]⟩
    · exact .inr (.inl ⟨t, k, hpc, rfl⟩)
    · exact .inr (.inr ⟨t, woken, .unlock false r, rfl, by rw [hpc]; rfl, hok, rfl, rfl, rfl, rfl⟩)
    · refine .inl ⟨t, _, rfl, rfl, rfl, ?_, ?_⟩
      · cases sig <;> rfl
      · cases sig <;> simp [hpc, Pc.due, Pc.signals]
    · exact .inr (.inr ⟨t, woken, .done r, rfl, by rw [hpc]; rfl, hok, rfl, rfl, rfl, rfl⟩)
  | ret t =>
    obtain ⟨⟨r, d⟩, hd, rfl⟩ := Option.map_eq_some_iff.1 h
    obtain ⟨hpc, rfl⟩ := take_some hd
    exact .inl ⟨t, .idle, rfl, rfl, rfl, rfl, by simp [hpc, Pc.due, Pc.signals]⟩
  | spurious t =>
    obtain ⟨k, hpc, rfl⟩ := spurious_some h
    exact .inl ⟨t, .lock k, rfl, rfl, rfl, rfl, by simp [hpc, Pc.due, Pc.signals]⟩

theorem mutex_act (h : MutexInv c) (hs : c.act a = some c') : MutexInv c' := by
  cases a with
  | call t k => exact mutex_call h hs
  | step t woken => exact mutex_step h hs
  | ret t =>
    obtain ⟨⟨r, d⟩, hd, rfl⟩ := Option.map_eq_some_iff.1 hs
    exact mutex_take h hd
  | spurious t => exact mutex_spurious h hs

omit [DecidableEq Tid] [Fintype Tid] in
theorem Pc.due_of_signals {p : Pc T} (closed empty : Bool) (h : p.signals = true) : p.due closed empty = true := by
  cases p <;> first | exact h | cases h

omit [Fintype Tid] in
/-- a critical section sends a signal, or does not change what the others find -/
theorem body_wakes (c : CQueue Tid T) (t : Tid) (k : Call T) :
    ((c.body t k).pc t).signals = true ∨
      ((c.body t k).closed = c.closed ∧ (c.body t k).q.isEmpty = c.q.isEmpty ∧
        k.wakes c.closed c.q.isEmpty = false) := by
  cases k with
  | enqueue data =>
    cases hempty : c.q.isEmpty with
    | true => exact .inl (by simp [body, hempty, Pc.signals])
    | false =>
      have happ : (c.q.append data).isEmpty = false := by simp [DList.isEmpty_eq_false]
      exact .inr ⟨rfl, happ, rfl⟩
  | peek =>
    right
    simp only [body]
    split <;> exact ⟨rfl, rfl, rfl⟩
  | dequeue =>
    simp only [body]
    split_ifs with hblock hempty
    · obtain ⟨hempty, -⟩ := Bool.and_eq_true_iff.1 hblock
      exact .inr ⟨rfl, rfl, by simp [Call.wakes, hempty]⟩
    · exact .inr ⟨rfl, rfl, by simp [Call.wakes, hempty]⟩
    · exact .inl (by simp [Pc.signals])
  | waitEmpty =>
    right
    simp only [body]
    split <;> exact ⟨rfl, rfl, rfl⟩
  | close =>
    simp only [body]
    split_ifs with hopen
    · exact .inl (by simp [Pc.signals])
    · exact .inr ⟨rfl, rfl, by simpa [Call.wakes] using hopen⟩

omit [Fintype Tid] in
/-- a reader blocks on an open, empty queue only -/
theorem body_reader {c : CQueue Tid T} {t : Tid} {k : Call T} (h : ((c.body t k).pc t).reader = true) :
    (c.body t k).closed = false ∧ (c.body t k).q.isEmpty = true := by
  have hgoto : ∀ (d : CQueue Tid T) (p : Pc T), p.reader = false → ((d.goto t p).pc t).reader = true → False :=
    fun d p hp hd => by simp [hp] at hd
  cases k with
  | enqueue data => exact (hgoto _ _ rfl h).elim
  | peek =>
    simp only [body] at h ⊢
    split_ifs at h ⊢ with hblock
    · obtain ⟨hempty, hopen⟩ := Bool.and_eq_true_iff.1 hblock
      have hopen : c.closed = false := by simpa using hopen
      exact ⟨hopen, hempty⟩
    · exact (hgoto _ _ rfl h).elim
  | dequeue =>
    simp only [body] at h ⊢
    split_ifs at h ⊢ with hblock hempty
    · obtain ⟨hempty, hopen⟩ := Bool.and_eq_true_iff.1 hblock
      have hopen : c.closed = false := by simpa using hopen
      exact ⟨hopen, hempty⟩
    · exact (hgoto _ _ rfl h).elim
    · exact (hgoto _ _ rfl h).elim
  | waitEmpty =>
    simp only [body] at h
    split_ifs at h
    · simp [block, Pc.reader, Call.reads] at h
    · exact (hgoto _ _ rfl h).elim
  | close =>
    simp only [body] at h
    split_ifs at h
    · exact (hgoto _ _ rfl h).elim
    · exact (hgoto _ _ rfl h).elim

omit [DecidableEq Tid] [Fintype Tid] in
theorem wakeUp_due {woken : Tid → Bool} {pc : Tid → Pc T} {u : Tid} {closed empty : Bool}
    (h : (pc u).due closed empty = true) : wakeUp woken pc u = pc u := by
  refine wakeUp_of_not_waiting ?_
  cases hpc : pc u <;> first | rfl | (rw [hpc] at h; cases h)

omit [DecidableEq Tid] [Fintype Tid] in
theorem wakeUp_woken {woken : Tid → Bool} {pc : Tid → Pc T} {u : Tid} (h : woken u = true) :
    wakeUp woken pc u = (pc u).woken := by
  cases hpc : pc u <;> simp [wakeUp, Pc.woken, hpc, h]

omit [DecidableEq Tid] [Fintype Tid] in
theorem wakeUp_reader {woken : Tid → Bool} {pc : Tid → Pc T} {u : Tid} (h : (wakeUp woken pc u).reader = true) :
    (pc u).reader = true ∧ woken u = false := by
  unfold wakeUp at h
  split at h
  · next k hpc =>
    split at h
    · cases h
    · next hw => exact ⟨by rw [hpc]; exact h, by simpa using hw⟩
  · next hne =>
    cases hpc : pc u with
    | waiting k => exact absurd hpc (hne k)
    | _ => simp [hpc, Pc.reader] at h

omit [Fintype Tid] in
/-- a blocked reader is not the thread that has just gone on -/
theorem reader_update {pc : Tid → Pc T} {t r : Tid} {p : Pc T} (hp : p.isWaiting = false)
    (hr : (Function.update pc t p r).reader = true) : r ≠ t ∧ (pc r).reader = true := by
  have hrt : r ≠ t := by
    rintro rfl
    rw [Function.update_self] at hr
    rw [Pc.waiting_of_reader hr] at hp
    cases hp
  rw [Function.update_of_ne hrt] at hr
  exact ⟨hrt, hr⟩

omit [Fintype Tid] in
/-- a thread goes on, and still sends the signal that it was due to send -/
theorem Heard.move (h : c.Heard R) {t : Tid} {p : Pc T} (hq : c'.q = c.q) (hclosed : c'.closed = c.closed)
    (hpc : c'.pc = Function.update c.pc t p) (hp : p.isWaiting = false)
    (hdue : ∀ closed empty, (c.pc t).due closed empty = true → p.due closed empty = true) : c'.Heard R := by
  rintro ⟨⟨r, hr⟩, hheld⟩
  rw [hq, hclosed] at hheld
  rw [hpc] at hr
  obtain ⟨-, hr⟩ := reader_update hp hr
  obtain ⟨u, hu⟩ := h ⟨⟨r, hr⟩, hheld⟩
  refine ⟨u, ?_⟩
  rw [hq, hclosed, hpc]
  by_cases hut : u = t
  · subst hut
    rw [Function.update_self]
    exact hdue _ _ hu
  · rwa [Function.update_of_ne hut]

omit [Fintype Tid] in
/-- a critical section: it makes a signal due, or was not due to send one and leaves the queue as empty as it was -/
theorem Heard.body (hR : ¬ R false true) (h : c.Heard R) {t : Tid} {k : Call T} (hpc : c.pc t = .locked k) :
    (c.body t k).Heard R := by
  rintro ⟨⟨r, hr⟩, hheld⟩
  rcases body_wakes c t k with hsig | ⟨hclosed, hempty, hwakes⟩
  · exact ⟨t, Pc.due_of_signals _ _ hsig⟩
  · have hrt : r ≠ t := by
      rintro rfl
      obtain ⟨hopen, hnone⟩ := body_reader hr
      rw [hopen, hnone] at hheld
      exact hR hheld
    rw [body_pc_ne c hrt] at hr
    rw [hclosed, hempty] at hheld
    obtain ⟨u, hu⟩ := h ⟨⟨r, hr⟩, hheld⟩
    have hut : u ≠ t := by
      rintro rfl
      rw [hpc] at hu
      exact absurd hu (by simp [Pc.due, hwakes])
    exact ⟨u, by rwa [hclosed, hempty, body_pc_ne c hut]⟩

omit [Fintype Tid] in
/-- a signal that is not lost: the one who is due to send the next is still there, or no reader is left -/
theorem Kept.heard {t : Tid} {woken : Tid → Bool} {p : Pc T} (hkept : c.Held R → c.Kept t woken)
    (hsend : (c.pc t).sends = true) (hq : c'.q = c.q) (hclosed : c'.closed = c.closed)
    (hpc : c'.pc = Function.update (wakeUp woken c.pc) t p) (hp : p.isWaiting = false) : c'.Heard R := by
  rintro ⟨⟨r, hr⟩, hheld⟩
  rw [hq, hclosed] at hheld
  rw [hpc] at hr
  obtain ⟨hr, hasleep⟩ := wakeUp_reader (reader_update hp hr).2
  rcases hkept ⟨⟨r, hr⟩, hheld⟩ with ⟨u, hut, hu⟩ | ⟨v, hv, hwoken, hnext⟩ | hall
  · refine ⟨u, ?_⟩
    rw [hq, hclosed, hpc, Function.update_of_ne hut, wakeUp_due hu]
    exact hu
  · have hvt : v ≠ t := by
      rintro rfl
      cases hcv : c.pc v <;> simp_all [Pc.isWaiting, Pc.sends]
    refine ⟨v, ?_⟩
    rw [hq, hclosed, hpc, Function.update_of_ne hvt, wakeUp_woken hwoken]
    exact hnext
  · rw [hall r hr] at hasleep
    cases hasleep

/-- **Step lemma.** A step keeps it that a signal is due while a reader is blocked for no reason, unless the step sends
a signal that is lost. -/
theorem heard_act (hR : ¬ R false true) (h : c.Heard R) (hg : c.Heeded R a) (hs : c.act a = some c') :
    c'.Heard R := by
  rcases act_cases hs with ⟨t, p, hq, hclosed, hpc, hp, hdue⟩ | ⟨t, k, hpc, rfl⟩ |
    ⟨t, woken, p, rfl, hsend, -, hq, hclosed, hpc, hp⟩
  · exact h.move hq hclosed hpc hp hdue
  · exact h.body hR hpc
  · exact Kept.heard (hg hsend) hsend hq hclosed hpc hp

omit [DecidableEq Tid] [Fintype Tid] in
theorem heard_empty (R : Bool → Bool → Prop) : (empty : CQueue Tid T).Heard R := by
  rintro ⟨⟨r, hr⟩, -⟩
  cases hr

/-- **Run lemma.** -/
theorem heard_run (hR : ¬ R false true) {as : List (Act Tid T)} (hr : run act empty as = some c)
    (hg : Meets act empty (fun _ => Heeded R) as) : c.Heard R :=
  run_induction (G := fun _ => Heeded R) (I := fun _ d => Heard R d) (heard_empty R)
    (fun _ _ _ _ _ hg h hs => heard_act hR h hg hs) hg hr

theorem mutex_run {as : List (Act Tid T)} (hr : run act empty as = some c) : MutexInv c :=
  run_inv (I := MutexInv) (fun t => by simp [empty, Pc.holds]) (fun _ _ _ h hs => mutex_act h hs) hr

end Steps

/-! ## A closed queue -/

section Close

variable [DecidableEq Tid] [Fintype Tid] {c : CQueue Tid T}

/-- no call is able to take a step -/
def Still (c : CQueue Tid T) : Prop := ∀ t, (∀ woken, c.step t woken = none) ∧ c.take t = none

/-- closed, with no wake-up pending and no call able to take a step, and a thread is blocked in `peek` or `dequeue` -/
def Stranded (c : CQueue Tid T) : Prop :=
  c.closed = true ∧ (∀ t, (c.pc t).signals = false) ∧ c.Still ∧ ∃ t, (c.pc t).reader = true

/-- a thread in a call with a signal to send can go on, or waits for one that can -/
theorem not_still (hm : c.MutexInv) (h : c.Due) : ¬ c.Still := by
  intro hstill
  have hbody : ∀ t k, c.pc t ≠ .locked k := fun t k hpc => by
    have := (hstill t).1 fun _ => true
    simp [step, hpc] at this
  have hunlock : ∀ t sig r, c.pc t ≠ .unlock sig r := fun t sig r hpc => by
    have := (hstill t).1 fun _ => true
    simp [step, hpc] at this
  have hall : c.SignalOk fun _ => true := fun ⟨u, hu⟩ => ⟨u, hu, rfl⟩
  have hsignalLocked : ∀ t r, c.pc t ≠ .signalLocked r := fun t r hpc => by
    have := (hstill t).1 fun _ => true
    simp [step, hpc, signal, hall] at this
  have hsignal : ∀ t r, c.pc t ≠ .signal r := fun t r hpc => by
    have := (hstill t).1 fun _ => true
    simp [step, hpc, signal, hall] at this
  obtain ⟨t, ht⟩ := h
  cases hpc : c.pc t with
  | lock k =>
    cases hmutex : c.mutex with
    | none =>
      have := (hstill t).1 fun _ => true
      simp [step, hpc, hmutex] at this
    | some u =>
      -- the thread that holds the mutex can go on
      have hu := (hm u).1 hmutex
      cases hpu : c.pc u with
      | locked k => exact hbody u k hpu
      | signalLocked r => exact hsignalLocked u r hpu
      | unlock sig r => exact hunlock u sig r hpu
      | _ => simp [hpu, Pc.holds] at hu
  | locked k => exact hbody t k hpc
  | signalLocked r => exact hsignalLocked t r hpc
  | unlock sig r => exact hunlock t sig r hpc
  | signal r => exact hsignal t r hpc
  | _ => simp [hpc, Pc.due, Pc.signals] at ht

/-- a reader need not be blocked on a closed queue -/
def IsClosed (closed _empty : Bool) : Prop := closed = true

/-- **Close.** In every run in which no signal sent on the closed queue is lost, no reader is left blocked on it. -/
theorem close_releases {as : List (Act Tid T)} (hr : run act empty as = some c)
    (hg : Meets act empty (fun _ => Heeded IsClosed) as) : ¬ c.Stranded := by
  rintro ⟨hclosed, -, hstill, hreader⟩
  have hdue := heard_run (by simp [IsClosed]) hr hg ⟨hreader, hclosed⟩
  exact not_still (mutex_run hr) hdue hstill

/-- thread `t` enters a call and takes `n` steps in it; its signals wake `woken` -/
def enter (t : Tid) (k : Call T) (n : ℕ) (woken : Tid → Bool) : List (Act Tid T) :=
  .call t k :: List.replicate n (.step t woken)

instance (closed empty : Bool) : Decidable (IsClosed closed empty) := inferInstanceAs (Decidable (_ = _))

instance (t : Tid) (woken : Tid → Bool) : Decidable (c.Kept t woken) := inferInstanceAs (Decidable (_ ∨ _ ∨ _))

instance (R : Bool → Bool → Prop) [∀ closed empty, Decidable (R closed empty)] (a : Act Tid T) :
    Decidable (c.Heeded R a) :=
  match a with
  | .step t woken => inferInstanceAs (Decidable (_ → (_ ∧ _) → c.Kept t woken))
  | .call _ _ | .ret _ | .spurious _ => inferInstanceAs (Decidable True)

/-- one reader: `close` wakes it -/
theorem close_releases_one : ∃ c : CQueue Bool ℕ,
    run act empty (enter false .peek 2 (fun _ => true) ++ enter true .close 4 fun _ => true) = some c ∧
      c.closed = true ∧ ¬ c.Stranded := by
  obtain ⟨c, hr, hc⟩ : ∃ c : CQueue Bool ℕ,
      run act empty (enter false .peek 2 (fun _ => true) ++ enter true .close 4 fun _ => true) = some c ∧
        c.closed = true := ⟨_, rfl, rfl⟩
  exact ⟨c, hr, hc, close_releases hr (meets_of_check (by decide))⟩

/-- **One signal for two readers.** Threads `some false` and `some true` block in `peek` and `dequeue` on the empty
queue. `close` wakes the first, which returns without a signal of its own. -/
theorem two_readers_stranded : ∃ c : CQueue (Option Bool) ℕ,
    run act empty (enter (some false) .peek 2 (fun _ => true) ++ enter (some true) .dequeue 2 (fun _ => true) ++
      enter none .close 4 (fun t => t = some false) ++ .ret none ::
        List.replicate 3 (.step (some false) fun _ => true) ++ [.ret (some false)]) = some c ∧
      c.Stranded := by
  refine ⟨_, rfl, rfl, by decide, fun t => ?_, some true, rfl⟩
  rcases t with _ | _ | _ <;> exact ⟨fun _ => rfl, rfl⟩

end Close

end K23Search.CQueue
