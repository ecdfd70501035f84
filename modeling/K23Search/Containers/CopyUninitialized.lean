/-
`functions::copy_uninitialized` (include/qs/functions/ops.hpp): copies of a range of objects, constructed in place in
storage that holds none.

A copy constructor may throw, and may see and change a state of its own (`env`), as the counter of the tests. A
destructor changes that state too, and does not throw. To destroy what is no object is undefined.

- `Lifecycle`: copy constructor and destructor of the value type;
- `Ranges`: source, storage, and the log of the constructors and destructors that ran;
- `constructAll`: the copy constructor on a list of elements in turn, `none` if it throws.

Results:
- `copyLoop_spec`, `destroyLoop_spec`: the two loops;
- `copyUninitialized_spec`: all elements are copied, or what was constructed is destroyed and the exception goes on.
-/
import K23Search.Lib.Outcome
import Mathlib.Data.List.Basic
import Mathlib.Data.Nat.Notation
import Mathlib.Logic.Function.Basic

namespace K23Search.CopyUninitialized

variable {T V E : Type}

/-! ## Model -/

structure Lifecycle (T V E : Type) where
  /-- `value_type(x)`; `none`: it throws -/
  construct : E → T → Option V × E
  /-- `~value_type()` -/
  destroy : E → V → E

inductive Event where
  | constructed (p : ℕ)
  | destroyed (p : ℕ)
deriving DecidableEq

structure Ranges (T V E : Type) where
  source : List T
  /-- the objects in the storage -/
  slots : ℕ → Option V
  log : List Event
  env : E

/-- `new (std::addressof(*iter)) value_type(x)` -/
def constructAt (life : Lifecycle T V E) (m : Ranges T V E) (iter : ℕ) (x : T) : Outcome (Ranges T V E) :=
  match life.construct m.env x with
  | (some v, env) =>
    .returns { m with slots := Function.update m.slots iter (some v), log := m.log ++ [.constructed iter], env := env }
  | (none, env) => .throws { m with env := env }

/-- `destination->~value_type()` -/
def destroyAt (life : Lifecycle T V E) (m : Ranges T V E) (p : ℕ) : Outcome (Ranges T V E) :=
  match m.slots p with
  | some v =>
    .returns
      { m with
        slots := Function.update m.slots p none
        log := m.log ++ [.destroyed p]
        env := life.destroy m.env v }
  | none => .undefined

/-- the loop of the `try` block, with `n` rounds left; it leaves the storage and `iter` -/
def copyLoop (life : Lifecycle T V E) : ℕ → Ranges T V E → ℕ → ℕ → Outcome (Ranges T V E × ℕ)
  | 0, m, _, iter => .returns (m, iter)
  | n + 1, m, start, iter =>
    match m.source[start]? with
    | none => .undefined
    | some x =>
      match constructAt life m iter x with
      | .returns m => copyLoop life n m (start + 1) (iter + 1)
      | .throws m => .throws (m, iter)
      | .undefined => .undefined

/-- the loop of the handler, with `n` rounds left -/
def destroyLoop (life : Lifecycle T V E) : ℕ → Ranges T V E → ℕ → Outcome (Ranges T V E)
  | 0, m, _ => .returns m
  | n + 1, m, destination => (destroyAt life m destination).bind fun m => destroyLoop life n m (destination + 1)

/-- `throw;` behind the handler -/
def rethrow {S : Type} : Outcome S → Outcome S
  | .returns s => .throws s
  | .throws s => .throws s
  | .undefined => .undefined

/-- `copy_uninitialized(start, end, destination)` -/
def copyUninitialized (life : Lifecycle T V E) (m : Ranges T V E) (start stop destination : ℕ) :
    Outcome (Ranges T V E) :=
  match copyLoop life (stop - start) m start destination with
  | .returns (m, _) => .returns m
  | .throws (m, iter) => rethrow (destroyLoop life (iter - destination) m destination)
  | .undefined => .undefined

/-! ## What it does -/

/-- the copies of a list of elements, one after the other, and what is then the state of the constructors -/
def constructAll (life : Lifecycle T V E) : E → List T → Option (List V × E)
  | env, [] => some ([], env)
  | env, x :: xs =>
    match life.construct env x with
    | (some v, env) => (constructAll life env xs).map fun r => (v :: r.1, r.2)
    | (none, _) => none

/-- the storage with the objects `vs` from `p` on -/
def place (slots : ℕ → Option V) (p : ℕ) (vs : List V) : ℕ → Option V :=
  fun q => if p ≤ q ∧ q < p + vs.length then vs[q - p]? else slots q

/-- the storage with no objects in `k` slots from `p` on -/
def clear (slots : ℕ → Option V) (p k : ℕ) : ℕ → Option V :=
  fun q => if p ≤ q ∧ q < p + k then none else slots q

/-- `k` constructors from slot `p` on -/
def constructs (p k : ℕ) : List Event := (List.range' p k).map .constructed

/-- `k` destructors from slot `p` on -/
def destroys (p k : ℕ) : List Event := (List.range' p k).map .destroyed

/-- all or nothing, from `start` to `stop` of the source -/
structure AllOrNothing (life : Lifecycle T V E) (m : Ranges T V E) (start stop destination : ℕ) : Prop where
  /-- no constructor throws -/
  all : ∀ vs env, constructAll life m.env ((m.source.drop start).take (stop - start)) = some (vs, env) →
    copyUninitialized life m start stop destination =
      .returns
        { source := m.source
          slots := place m.slots destination vs
          log := m.log ++ constructs destination (stop - start)
          env := env }
  /-- the constructor of element `k` throws: those before it are destroyed, and nothing else changes -/
  nothing : ∀ k x vs env, k < stop - start → m.source[start + k]? = some x →
    constructAll life m.env ((m.source.drop start).take k) = some (vs, env) → (life.construct env x).1 = none →
    copyUninitialized life m start stop destination =
      .throws
        { source := m.source
          slots := clear m.slots destination k
          log := m.log ++ constructs destination k ++ destroys destination k
          env := vs.foldl life.destroy (life.construct env x).2 }

theorem place_cons (slots : ℕ → Option V) (p : ℕ) (v : V) (vs : List V) :
    place (Function.update slots p (some v)) (p + 1) vs = place slots p (v :: vs) := by
  funext q
  simp only [place, List.length_cons]
  by_cases hq : q = p
  · subst hq
    rw [if_neg (by omega), if_pos (by omega), Function.update_self, Nat.sub_self]
    rfl
  · rw [Function.update_of_ne hq]
    by_cases hin : p + 1 ≤ q ∧ q < p + 1 + vs.length
    · obtain ⟨i, rfl⟩ : ∃ i, q = p + 1 + i := ⟨q - (p + 1), by omega⟩
      rw [if_pos hin, if_pos (by omega), Nat.add_sub_cancel_left, Nat.add_assoc p 1 i, Nat.add_sub_cancel_left,
        Nat.add_comm 1 i, List.getElem?_cons_succ]
    · rw [if_neg hin, if_neg (by omega)]

theorem place_self (slots : ℕ → Option V) (p : ℕ) (v : V) (vs : List V) : place slots p (v :: vs) p = some v := by
  rw [place, if_pos ⟨Nat.le_refl p, by simp⟩, Nat.sub_self, List.getElem?_cons_zero]

theorem place_destroy (slots : ℕ → Option V) (p : ℕ) (v : V) (vs : List V) :
    Function.update (place slots p (v :: vs)) p none = place (Function.update slots p none) (p + 1) vs := by
  rw [← place_cons]
  funext q
  by_cases hq : q = p
  · subst hq
    rw [Function.update_self, place, if_neg (by omega), Function.update_self]
  · simp only [place, Function.update_of_ne hq]

theorem clear_succ (slots : ℕ → Option V) (p k : ℕ) :
    clear (Function.update slots p none) (p + 1) k = clear slots p (k + 1) := by
  funext q
  simp only [clear]
  by_cases hq : q = p
  · subst hq
    rw [if_neg (by omega), if_pos (by omega), Function.update_self]
  · rw [Function.update_of_ne hq]
    by_cases hin : p + 1 ≤ q ∧ q < p + 1 + k
    · rw [if_pos hin, if_pos (by omega)]
    · rw [if_neg hin, if_neg (by omega)]

theorem length_constructAll {life : Lifecycle T V E} {env env' : E} {xs : List T} {vs : List V}
    (h : constructAll life env xs = some (vs, env')) : vs.length = xs.length := by
  induction xs generalizing env vs with
  | nil =>
    cases h
    rfl
  | cons x xs ih =>
    rw [constructAll] at h
    split at h
    · obtain ⟨⟨ws, e⟩, hr, heq⟩ := Option.map_eq_some_iff.1 h
      cases heq
      rw [List.length_cons, List.length_cons, ih hr]
    · cases h

/-! ## The loops -/

/-- `k` elements are copied -/
theorem copyLoop_spec (life : Lifecycle T V E) {m : Ranges T V E} {start k : ℕ} (iter : ℕ) {vs : List V} {env : E}
    (n : ℕ) (hk : start + k ≤ m.source.length)
    (h : constructAll life m.env ((m.source.drop start).take k) = some (vs, env)) :
    copyLoop life (k + n) m start iter =
      copyLoop life n
        { source := m.source
          slots := place m.slots iter vs
          log := m.log ++ constructs iter k
          env := env } (start + k) (iter + k) := by
  induction k generalizing m start iter vs with
  | zero =>
    cases h
    have hplace : place m.slots iter ([] : List V) = m.slots := by
      funext q
      rw [place, if_neg (by rw [List.length_nil]; omega)]
    rw [hplace, constructs, Nat.zero_add, List.range'_zero, List.map_nil, List.append_nil]
    rfl
  | succ k ih =>
    have hlt : start < m.source.length := by omega
    rw [List.drop_eq_getElem_cons hlt, List.take_succ_cons, constructAll] at h
    split at h
    · next v env' hcons =>
      obtain ⟨⟨ws, e⟩, hr, heq⟩ := Option.map_eq_some_iff.1 h
      cases heq
      rw [Nat.add_right_comm, copyLoop, List.getElem?_eq_getElem hlt]
      simp only [constructAt, hcons]
      rw [ih (iter + 1) (by simpa [Nat.add_right_comm, Nat.add_assoc] using hk) hr, place_cons]
      simp only [constructs, List.append_assoc, List.range'_succ, List.map_cons, List.singleton_append,
        Nat.add_assoc, Nat.add_comm 1 k]
    · cases h

theorem copyLoop_throws (life : Lifecycle T V E) {m : Ranges T V E} {start : ℕ} {x : T} (n iter : ℕ)
    (hx : m.source[start]? = some x) (h : (life.construct m.env x).1 = none) :
    copyLoop life (n + 1) m start iter = .throws ({ m with env := (life.construct m.env x).2 }, iter) := by
  have hconstruct : life.construct m.env x = (none, (life.construct m.env x).2) := by rw [← h]
  rw [copyLoop, hx]
  simp only [constructAt]
  rw [hconstruct]

/-- the objects `vs` are destroyed, the first one first -/
theorem destroyLoop_spec (life : Lifecycle T V E) (m : Ranges T V E) (slots : ℕ → Option V) (p : ℕ) (vs : List V) :
    destroyLoop life vs.length { m with slots := place slots p vs } p =
      .returns
        { m with
          slots := clear slots p vs.length
          log := m.log ++ destroys p vs.length
          env := vs.foldl life.destroy m.env } := by
  induction vs generalizing m slots p with
  | nil =>
    have hplace : place slots p ([] : List V) = clear slots p 0 := by
      funext q
      simp [place, clear]
    simp [destroyLoop, hplace, destroys]
  | cons v vs ih =>
    rw [List.length_cons, destroyLoop, destroyAt]
    simp only [place_self, Outcome.bind, place_destroy]
    rw [ih { m with log := m.log ++ [.destroyed p], env := life.destroy m.env v }, clear_succ]
    simp only [destroys, List.append_assoc, List.range'_succ, List.map_cons, List.singleton_append, List.foldl_cons]

/-- **All or nothing**, for every range of the source -/
theorem copyUninitialized_spec (life : Lifecycle T V E) (m : Ranges T V E) {start stop : ℕ} (destination : ℕ)
    (hle : start ≤ stop) (hstop : stop ≤ m.source.length) : AllOrNothing life m start stop destination where
  all := by
    intro vs env hall
    have hloop := copyLoop_spec life destination 0 (by omega) hall
    rw [Nat.add_zero, copyLoop] at hloop
    rw [copyUninitialized, hloop]
  nothing := by
    intro k x vs env hk hx hbefore hthrow
    obtain ⟨n, hn⟩ : ∃ n, stop - start = k + (n + 1) := ⟨stop - start - k - 1, by omega⟩
    have hlen : vs.length = k := by
      rw [length_constructAll hbefore, List.length_take, List.length_drop]
      omega
    -- the loop ends at element `k`, with `iter` on the slot of that element
    have hthrows := copyLoop_throws life (m := ⟨m.source, place m.slots destination vs,
      m.log ++ constructs destination k, env⟩) n (destination + k) hx hthrow
    have hclean := destroyLoop_spec life
      ⟨m.source, m.slots, m.log ++ constructs destination k, (life.construct env x).2⟩ m.slots destination vs
    rw [hlen] at hclean
    rw [copyUninitialized, hn, copyLoop_spec life destination (n + 1) (by omega) hbefore, hthrows]
    simp only [Nat.add_sub_cancel_left, hclean]
    rfl

/-- the elements of the tests: a constructor counts, and throws from the third call on -/
def counted : Lifecycle ℕ ℕ ℕ := ⟨fun count x => (if 2 ≤ count then none else some x, count + 1), fun count _ => count⟩

/-- three elements, of which the third one throws -/
theorem copyUninitialized_third :
    0 ≤ 3 ∧ 3 ≤ [7, 8, 9].length ∧ AllOrNothing counted ⟨[7, 8, 9], fun _ => none, [], 0⟩ 0 3 0 :=
  ⟨by decide, by decide, copyUninitialized_spec counted _ 0 (by decide) (by decide)⟩

end K23Search.CopyUninitialized
