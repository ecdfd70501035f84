/-
Critical sections. Several pieces of data, each under a lock of its own; an operation takes the lock of its piece, runs
step by step (`CriticalSection`: what a step does next may depend on what it has read) and unlocks with a result. Any
number of threads run operations, and their steps interleave.

The steps of a section have an `effect`, as one function. `linearized`: for every interleaving, the operations are
linearized by their effects, in the order of the unlocks. So code whose every access to the data is in a section may be
modelled with one step for each operation.

Results:
- `inv_step`, `linearized`: the log of a run is linearized by the effects;
- `enabled`: as long as a thread is in an operation, some thread can take a step, or the operation that a thread is in is
  undefined.
-/
import K23Search.Lib.Linearizable
import K23Search.Lib.Run
import Mathlib.Logic.Function.Basic

namespace K23Search.Lib

/-- the code between lock and unlock -/
inductive CriticalSection (D R : Type) where
  | unlock (res : R)
  /-- `f`: what the step does to the data (`none`: undefined); `next`: how the code goes on, by what it has read -/
  | step (f : D → Option D) (next : D → CriticalSection D R)

namespace CriticalSection

variable {D R : Type}

/-- read the data -/
def read (next : D → CriticalSection D R) : CriticalSection D R := .step some next

/-- change the data -/
def write (f : D → Option D) (rest : CriticalSection D R) : CriticalSection D R := .step f fun _ => rest

/-- the whole section at once -/
def effect : CriticalSection D R → D → Option (R × D)
  | .unlock res, d => some (res, d)
  | .step f next, d => (f d).bind fun d' => (next d).effect d'

@[simp] theorem effect_unlock (res : R) (d : D) : (unlock res : CriticalSection D R).effect d = some (res, d) := rfl

@[simp] theorem effect_read (next : D → CriticalSection D R) (d : D) : (read next).effect d = (next d).effect d := rfl

@[simp] theorem effect_write (f : D → Option D) (rest : CriticalSection D R) (d : D) :
    (write f rest).effect d = (f d).bind rest.effect := rfl

end CriticalSection

/-- the pieces of data, and the operations on them -/
structure Sections (Lock Op R : Type) where
  Data : Lock → Type
  lockOf : Op → Lock
  body : ∀ op, CriticalSection (Data (lockOf op)) R

namespace Sections

variable {Lock Op R Tid : Type} (P : Sections Lock Op R)

/-- where a thread is -/
inductive Place where
  | out
  /-- at the lock -/
  | lock (op : Op)
  | inside (op : Op) (rest : CriticalSection (P.Data (P.lockOf op)) R)
  | done (res : R)

/-- the contents of all pieces -/
abbrev Contents := ∀ l, P.Data l

structure State (Tid : Type) where
  data : P.Contents
  mutex : Lock → Option Tid
  place : Tid → P.Place
  /-- the data behind the operations that have unlocked -/
  settled : P.Contents
  log : List (Event Tid Op R P.Contents)

inductive Act (Tid Op : Type) where
  | call (t : Tid) (op : Op)
  | step (t : Tid)
  | ret (t : Tid)

def init (d : P.Contents) : P.State Tid := ⟨d, fun _ => none, fun _ => .out, d, []⟩

/-- the operations, one step each -/
def spec [DecidableEq Lock] (a : P.Contents) (op : Op) (res : R) (a' : P.Contents) : Prop :=
  ∃ d, (P.body op).effect (a (P.lockOf op)) = some (res, d) ∧ a' = Function.update a (P.lockOf op) d

variable {P}

def Place.point : P.Place → Point Op R
  | .out => .out
  | .lock op | .inside op _ => .invoked op
  | .done res => .effective res

section Step

variable [DecidableEq Lock] [DecidableEq Tid]

/-- thread `t` goes to `p` -/
def State.goto (s : P.State Tid) (t : Tid) (p : P.Place) : Tid → P.Place := Function.update s.place t p

def act (s : P.State Tid) : Act Tid Op → Option (P.State Tid)
  | .call t op =>
    match s.place t with
    | .out => some { s with place := s.goto t (.lock op), log := s.log ++ [.invoke t op] }
    | _ => none
  | .step t =>
    match s.place t with
    | .lock op =>
      if s.mutex (P.lockOf op) = none then
        some { s with
          place := s.goto t (.inside op (P.body op))
          mutex := Function.update s.mutex (P.lockOf op) (some t) }
      else none
    | .inside op (.step f next) => (f (s.data (P.lockOf op))).map fun d =>
      { s with
        place := s.goto t (.inside op (next (s.data (P.lockOf op))))
        data := Function.update s.data (P.lockOf op) d }
    | .inside op (.unlock res) =>
      let settled := Function.update s.settled (P.lockOf op) (s.data (P.lockOf op))
      some { s with
        place := s.goto t (.done res)
        mutex := Function.update s.mutex (P.lockOf op) none
        settled := settled
        log := s.log ++ [.effect t op res settled] }
    | _ => none
  | .ret t =>
    match s.place t with
    | .done res => some { s with place := s.goto t .out, log := s.log ++ [.respond t res] }
    | _ => none

end Step

/-! ## The invariant -/

structure Inv [DecidableEq Lock] (a₀ : P.Contents) (s : P.State Tid) : Prop where
  /-- a lock is held by the thread inside -/
  mutex : ∀ l t, s.mutex l = some t ↔ ∃ op rest, s.place t = .inside op rest ∧ P.lockOf op = l
  free : ∀ l, s.mutex l = none → s.data l = s.settled l
  /-- what is left of a section has the effect of the whole section -/
  held : ∀ t op rest, s.place t = .inside op rest →
    rest.effect (s.data (P.lockOf op)) = (P.body op).effect (s.settled (P.lockOf op))
  threads : ∀ t, Legal t s.log (s.place t).point
  effects : Effects P.spec a₀ s.log s.settled

section Invariant

variable [DecidableEq Lock] {a₀ : P.Contents} {s s' : P.State Tid} {t : Tid}

theorem inv_init (d : P.Contents) : Inv d (init P d : P.State Tid) where
  mutex l t := by simp [init]
  free _ _ := rfl
  held t op rest h := nomatch h
  threads _ := .start
  effects := .start

/-- a thread inside holds its lock -/
theorem Inv.holds (h : Inv a₀ s) {op : Op} {rest} (ht : s.place t = .inside op rest) :
    s.mutex (P.lockOf op) = some t := (h.mutex _ _).2 ⟨op, rest, ht, rfl⟩

/-- two threads inside are in sections of different locks -/
theorem Inv.exclusive (h : Inv a₀ s) {u : Tid} {op op' : Op} {rest rest'} (ht : s.place t = .inside op rest)
    (hu : s.place u = .inside op' rest') (hne : u ≠ t) : P.lockOf op' ≠ P.lockOf op := by
  intro heq
  have hheld := h.holds hu
  rw [heq, h.holds ht] at hheld
  exact hne (Option.some.inj hheld).symm

variable [DecidableEq Tid]

omit [DecidableEq Lock] in
theorem goto_self (s : P.State Tid) (t : Tid) (p : P.Place) : s.goto t p t = p := Function.update_self ..

omit [DecidableEq Lock] in
theorem goto_ne (s : P.State Tid) {t u : Tid} (hne : u ≠ t) (p : P.Place) : s.goto t p u = s.place u :=
  Function.update_of_ne hne ..

/-- what the log says of the other threads -/
theorem Inv.others (h : Inv a₀ s) {u : Tid} (hne : u ≠ t) {p : P.Place} {e : Event Tid Op R P.Contents}
    (he : e.thread = t) : Legal u (s.log ++ [e]) (s.goto t p u).point := by
  rw [goto_ne s hne]
  exact .other (h.threads u) (he ▸ hne.symm)

/-- a thread outside goes to another point outside -/
theorem Inv.mutex_outside (h : Inv a₀ s) {p : P.Place} (hold : ∀ op rest, s.place t ≠ .inside op rest)
    (hnew : ∀ op rest, p ≠ .inside op rest) (l : Lock) (u : Tid) :
    s.mutex l = some u ↔ ∃ op rest, s.goto t p u = .inside op rest ∧ P.lockOf op = l := by
  rw [h.mutex]
  by_cases hut : u = t
  · subst hut
    rw [goto_self]
    exact iff_of_false (fun ⟨op, rest, hin, _⟩ => hold op rest hin) fun ⟨op, rest, hin, _⟩ => hnew op rest hin
  · rw [goto_ne s hut]

theorem Inv.call (h : Inv a₀ s) {op : Op} (ht : s.place t = .out) :
    Inv a₀ { s with place := s.goto t (.lock op), log := s.log ++ [.invoke t op] } where
  mutex := h.mutex_outside (by simp [ht]) (by simp)
  free := h.free
  held u op' rest hu := by
    dsimp only at hu ⊢
    by_cases hut : u = t
    · subst hut
      simp [goto_self] at hu
    · exact h.held u op' rest ((goto_ne s hut _).symm.trans hu)
  threads u := by
    dsimp only
    by_cases hut : u = t
    · subst hut
      have hlegal := h.threads u
      rw [ht] at hlegal
      rw [goto_self]
      exact .invoke hlegal
    · exact h.others hut rfl
  effects := .other h.effects rfl

theorem Inv.ret (h : Inv a₀ s) {res : R} (ht : s.place t = .done res) :
    Inv a₀ { s with place := s.goto t .out, log := s.log ++ [.respond t res] } where
  mutex := h.mutex_outside (by simp [ht]) (by simp)
  free := h.free
  held u op' rest hu := by
    dsimp only at hu ⊢
    by_cases hut : u = t
    · subst hut
      simp [goto_self] at hu
    · exact h.held u op' rest ((goto_ne s hut _).symm.trans hu)
  threads u := by
    dsimp only
    by_cases hut : u = t
    · subst hut
      have hlegal := h.threads u
      rw [ht] at hlegal
      rw [goto_self]
      exact .respond hlegal
    · exact h.others hut rfl
  effects := .other h.effects rfl

theorem Inv.lock (h : Inv a₀ s) {op : Op} (ht : s.place t = .lock op) (hfree : s.mutex (P.lockOf op) = none) :
    Inv a₀ { s with
      place := s.goto t (.inside op (P.body op))
      mutex := Function.update s.mutex (P.lockOf op) (some t) } where
  mutex l u := by
    dsimp only
    have hmutex := h.mutex l u
    by_cases hut : u = t
    · subst hut
      rw [goto_self]
      by_cases hl : l = P.lockOf op
      · subst hl
        simp
      · rw [Function.update_of_ne hl, hmutex, ht]
        simp [Ne.symm hl]
    · rw [goto_ne s hut, ← hmutex]
      by_cases hl : l = P.lockOf op
      · subst hl
        simp [hfree, Ne.symm hut]
      · rw [Function.update_of_ne hl]
  free l hl := by
    dsimp only at hl ⊢
    refine h.free l ?_
    by_cases hlock : l = P.lockOf op
    · subst hlock
      exact hfree
    · rwa [Function.update_of_ne hlock] at hl
  held u op' rest hu := by
    dsimp only at hu ⊢
    by_cases hut : u = t
    · subst hut
      rw [goto_self] at hu
      cases hu
      rw [h.free _ hfree]
    · exact h.held u op' rest ((goto_ne s hut _).symm.trans hu)
  threads u := by
    dsimp only
    by_cases hut : u = t
    · subst hut
      have hlegal := h.threads u
      rw [ht] at hlegal
      rw [goto_self]
      exact hlegal
    · rw [goto_ne s hut]
      exact h.threads u
  effects := h.effects

/-- a step inside: what is left has the effect that is left -/
theorem Inv.inside (h : Inv a₀ s) {op : Op} {f next} {d : P.Data (P.lockOf op)}
    (ht : s.place t = .inside op (.step f next)) (hd : f (s.data (P.lockOf op)) = some d) :
    Inv a₀ { s with
      place := s.goto t (.inside op (next (s.data (P.lockOf op))))
      data := Function.update s.data (P.lockOf op) d } where
  mutex l u := by
    dsimp only
    rw [h.mutex]
    by_cases hut : u = t
    · subst hut
      rw [goto_self, ht]
      simp
    · rw [goto_ne s hut]
  free l hl := by
    dsimp only at hl ⊢
    have hne : l ≠ P.lockOf op := by
      rintro rfl
      rw [h.holds ht] at hl
      cases hl
    rw [Function.update_of_ne hne]
    exact h.free l hl
  held u op' rest hu := by
    dsimp only at hu ⊢
    by_cases hut : u = t
    · subst hut
      rw [goto_self] at hu
      cases hu
      rw [Function.update_self, ← h.held u op _ ht, CriticalSection.effect, hd, Option.bind_some]
    · rw [goto_ne s hut] at hu
      rw [Function.update_of_ne (h.exclusive ht hu hut)]
      exact h.held u op' rest hu
  threads u := by
    dsimp only
    by_cases hut : u = t
    · subst hut
      have hlegal := h.threads u
      rw [ht] at hlegal
      rw [goto_self]
      exact hlegal
    · rw [goto_ne s hut]
      exact h.threads u
  effects := h.effects

/-- the unlock: the operation has taken effect -/
theorem Inv.unlock (h : Inv a₀ s) {op : Op} {res : R} (ht : s.place t = .inside op (.unlock res))
    {settled : P.Contents} (hsettled : settled = Function.update s.settled (P.lockOf op) (s.data (P.lockOf op))) :
    Inv a₀ { s with
      place := s.goto t (.done res)
      mutex := Function.update s.mutex (P.lockOf op) none
      settled := settled
      log := s.log ++ [.effect t op res settled] } where
  mutex l u := by
    dsimp only
    have hmutex := h.mutex l u
    by_cases hut : u = t
    · subst hut
      rw [goto_self]
      refine iff_of_false (fun hheld => ?_) (by simp)
      by_cases hl : l = P.lockOf op
      · subst hl
        simp at hheld
      · rw [Function.update_of_ne hl, hmutex, ht] at hheld
        obtain ⟨op', rest, heq, hlock⟩ := hheld
        cases heq
        exact hl hlock.symm
    · rw [goto_ne s hut, ← hmutex]
      by_cases hl : l = P.lockOf op
      · subst hl
        simp [h.holds ht, Ne.symm hut]
      · rw [Function.update_of_ne hl]
  free l hl := by
    dsimp only at hl ⊢
    by_cases hlock : l = P.lockOf op
    · subst hlock
      rw [hsettled, Function.update_self]
    · rw [Function.update_of_ne hlock] at hl
      rw [hsettled, Function.update_of_ne hlock]
      exact h.free l hl
  held u op' rest hu := by
    dsimp only at hu ⊢
    by_cases hut : u = t
    · subst hut
      simp [goto_self] at hu
    · rw [goto_ne s hut] at hu
      rw [hsettled, Function.update_of_ne (h.exclusive ht hu hut)]
      exact h.held u op' rest hu
  threads u := by
    dsimp only
    by_cases hut : u = t
    · subst hut
      have hlegal := h.threads u
      rw [ht] at hlegal
      rw [goto_self]
      exact .effect hlegal
    · exact h.others hut rfl
  effects := .effect h.effects ⟨_, (h.held t op _ ht).symm, hsettled⟩

theorem inv_step {a : Act Tid Op} (h : Inv a₀ s) (hs : act s a = some s') : Inv a₀ s' := by
  unfold act at hs
  split at hs
  case h_1 t op =>
    split at hs
    case h_1 ht =>
      cases hs
      exact h.call ht
    case h_2 => cases hs
  case h_2 t =>
    split at hs
    case h_1 op ht =>
      split at hs
      case isTrue hfree =>
        cases hs
        exact h.lock ht hfree
      case isFalse => cases hs
    case h_2 op f next ht =>
      obtain ⟨d, hd, rfl⟩ := Option.map_eq_some_iff.1 hs
      exact h.inside ht hd
    case h_3 op res ht =>
      cases hs
      exact h.unlock ht rfl
    case h_4 => cases hs
  case h_3 t =>
    split at hs
    case h_1 res ht =>
      cases hs
      exact h.ret ht
    case h_2 => cases hs

theorem inv_run {as : List (Act Tid Op)} (hr : run act (init P a₀) as = some s) : Inv a₀ s :=
  run_inv (inv_init a₀) (fun _ _ _ h hs => inv_step h hs) hr

/-- **Linearization.** The log of every run is linearized by the effects of whole sections, and the data under a lock
that is free is what they lead to. -/
theorem linearized {as : List (Act Tid Op)} (hr : run act (init P a₀) as = some s) :
    Linearized P.spec a₀ s.log s.settled ∧ ∀ l, s.mutex l = none → s.data l = s.settled l :=
  ⟨⟨fun t => ⟨_, (inv_run hr).threads t⟩, (inv_run hr).effects⟩, (inv_run hr).free⟩

/-- **No deadlock.** With a thread in an operation, some thread can take a step, or one is inside an operation that is
undefined where it began. -/
theorem enabled (h : Inv a₀ s) (ht : s.place t ≠ .out) : (∃ a s', act s a = some s') ∨
    ∃ u op rest, s.place u = .inside op rest ∧ (P.body op).effect (s.settled (P.lockOf op)) = none := by
  have hinside : ∀ u op rest, s.place u = .inside op rest → (∃ a s', act s a = some s') ∨
      ∃ u op rest, s.place u = .inside op rest ∧ (P.body op).effect (s.settled (P.lockOf op)) = none := by
    intro u op rest hu
    cases rest with
    | unlock res => exact .inl ⟨.step u, _, by simp only [act, hu]; rfl⟩
    | step f next =>
      cases hf : f (s.data (P.lockOf op)) with
      | some d => exact .inl ⟨.step u, _, by simp only [act, hu, hf]; rfl⟩
      | none =>
        refine .inr ⟨u, op, _, hu, ?_⟩
        rw [← h.held u op _ hu, CriticalSection.effect, hf, Option.bind_none]
  cases hp : s.place t with
  | out => exact absurd hp ht
  | done res => exact .inl ⟨.ret t, _, by simp only [act, hp]; rfl⟩
  | inside op rest => exact hinside t op rest hp
  | lock op =>
    cases hm : s.mutex (P.lockOf op) with
    | none => exact .inl ⟨.step t, _, by simp only [act, hp, hm]; rfl⟩
    | some u =>
      obtain ⟨op', rest, hu, -⟩ := (h.mutex _ _).1 hm
      exact hinside u op' rest hu

end Invariant

end Sections

end K23Search.Lib
