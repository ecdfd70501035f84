/-
Sequences of operations on a set of `qs::string` objects, and which of the objects can be copied.

An operation that constructs an object needs a name that is not in use, any other operation objects that exist. An
operation that reads or writes where it must not is `none`, and nothing comes after it.

- `Copyable`: the copies of an object, and a `cat` of it, are defined, and the copies are equal to it;
- `LeavesNull`: the operations after which an object has no buffer. A copy of such an object reads one byte, the NUL,
  through the null pointer;
- `LeavesNoByte`: a `with_size` that allocates no byte. It writes its NUL outside the buffer, and a copy of the object
  would read it there; nothing comes after it here.

Results:
- `step_buffered`, `step_leavesNull`, `step_leavesNoByte`: what one operation leaves;
- `allCopyable_iff`: which sequences leave all objects copyable, all through.
-/
import K23Search.Lib.Run
import K23Search.Text.StringOps
import Mathlib.Logic.Function.Basic

namespace K23Search.Text

open K23Search.Lib

namespace StringObjects

/-! ## Model -/

/-- strings by their names; `none`: no object of this name -/
abbrev Objects := ℕ → Option QsString

/-- `mem`: what the memory that the operation allocates holds -/
inductive Op where
  | defaultConstruct (x : ℕ)
  | fromPointer (x : ℕ) (source : List UInt8)
  | fromBytes (x : ℕ) (source : List UInt8) (length : ℕ)
  | fromInt (x : ℕ) (mem : ℕ → UInt8) (num : ℤ)
  | withSize (x : ℕ) (mem : ℕ → UInt8) (cap : ℕ)
  | copyConstruct (x : ℕ) (mem : ℕ → UInt8) (other : ℕ)
  | moveConstruct (x other : ℕ)
  | copyAssign (x : ℕ) (mem : ℕ → UInt8) (other : ℕ)
  | moveAssign (x other : ℕ)
  | cat (x : ℕ) (mem : ℕ → UInt8) (other : ℕ)
  /-- construct `x` as the sum -/
  | plus (x : ℕ) (mem : ℕ → UInt8) (y other : ℕ)
  /-- with another object as the remove set -/
  | sanitize (x removeSet : ℕ)

def empty : Objects := fun _ => none

def put (s : Objects) (x : ℕ) (u : Option QsString) : Option Objects := u.map fun u => Function.update s x (some u)

def construct (s : Objects) (x : ℕ) (u : Option QsString) : Option Objects := if s x = none then put s x u else none

def step (s : Objects) : Op → Option Objects
  | .defaultConstruct x => construct s x (some .null)
  | .fromPointer x source => construct s x (QsString.ofPointer source)
  | .fromBytes x source length => construct s x (QsString.ofBytes source length)
  | .fromInt x mem num => construct s x (QsString.ofInt mem num)
  | .withSize x mem cap => construct s x (QsString.withSize mem cap)
  | .copyConstruct x mem other => construct s x ((s other).bind (QsString.copyConstruct mem))
  | .moveConstruct x other =>
    (s other).bind fun o => (construct s x (some o.moveConstruct.1)).bind fun s => put s other (some o.moveConstruct.2)
  | .copyAssign x mem other => (s x).bind fun u => (s other).bind fun o => put s x (u.copyAssign mem (x = other) o)
  | .moveAssign x other =>
    (s x).bind fun u => (s other).bind fun o =>
      (put s x (some (u.moveAssign (x = other) o).1)).bind fun s => put s other (some (u.moveAssign (x = other) o).2)
  | .cat x mem other => (s x).bind fun u => (s other).bind fun o => put s x (u.cat mem o)
  | .plus x mem y other => construct s x ((s y).bind fun u => (s other).bind fun o => u.plus mem o)
  | .sanitize x removeSet =>
    if x = removeSet then none else (s x).bind fun u => (s removeSet).bind fun r => put s x (u.sanitize r)

/-! ## Copies -/

/-- the object `o`, named `x`, can be copied -/
structure Copyable (s : Objects) (x : ℕ) (o : QsString) : Prop where
  construct : ∀ mem, ∃ v, QsString.copyConstruct mem o = some v ∧ v.eq o = some true
  assign : ∀ mem y u, s y = some u → ∃ v, u.copyAssign mem (y = x) o = some v ∧ v.eq o = some true
  cat : ∀ mem y u, s y = some u → (u.cat mem o).isSome = true

/-- `with_size` makes a string -/
def Sized (s : Objects) : Op → Prop
  | .withSize x mem cap => s x = none → (step s (.withSize x mem cap)).isSome = true
  | _ => True

/-- all through the sequence, every object can be copied, those that `with_size` makes among them -/
structure AllCopyable (ops : List Op) : Prop where
  copyable : ∀ pre s x o, pre <+: ops → run step empty pre = some s → s x = some o → Copyable s x o
  sized : Meets step empty (fun _ => Sized) ops

/-- a string is default-constructed, or moved into another -/
def LeavesNull (s : Objects) : Op → Prop
  | .defaultConstruct x => s x = none
  | .moveConstruct x other => s x = none ∧ (s other).isSome = true
  | .moveAssign x other => x ≠ other ∧ (s x).isSome = true ∧ (s other).isSome = true
  | _ => False

/-- a string is made by `with_size` of the largest `std::size_t` -/
def LeavesNoByte (s : Objects) : Op → Prop
  | .withSize x _ cap => s x = none ∧ (cap + 1) % 2 ^ 64 = 0
  | _ => False

def Buffered (s : Objects) : Prop := ∀ x o, s x = some o → o.str.isSome = true

variable {s t : Objects} {x : ℕ} {o : QsString}

theorem copyable_of_buffered (h : Buffered s) (hx : s x = some o) : Copyable s x o := by
  obtain ⟨junk, ho⟩ := QsString.exists_is (h x o hx)
  constructor
  · intro mem
    obtain ⟨v, hv, hvis⟩ := QsString.copyConstruct_is mem ho
    exact ⟨v, hv, hvis.equal ho⟩
  · intro mem y u hy
    rw [QsString.copyAssign]
    by_cases hyx : y = x
    · have huo : u = o := Option.some.inj (hy.symm.trans (hyx ▸ hx))
      exact ⟨u, if_pos (decide_eq_true hyx), huo ▸ ho.equal ho⟩
    · obtain ⟨v, hv, hvis⟩ := QsString.copy_is mem ho
      rw [if_neg (by simpa using hyx)]
      exact ⟨v, hv, hvis.equal ho⟩
  · intro mem y u hy
    obtain ⟨junk', hu⟩ := QsString.exists_is (h y u hy)
    obtain ⟨v, rest, hv, -⟩ := QsString.cat_is mem hu ho
    rw [hv]
    rfl

theorem not_copyable_null (s : Objects) (x : ℕ) : ¬Copyable s x .null := by
  intro h
  obtain ⟨v, hv, -⟩ := h.construct fun _ => 0
  rw [QsString.copyConstruct_null _ rfl] at hv
  cases hv

/-! ## One operation -/

/-- what an operation returns, if it is defined, has a buffer -/
def Buffers (u : Option QsString) : Prop := ∀ o, u = some o → o.str.isSome = true

theorem buffers_some (h : o.str.isSome = true) : Buffers (some o) := by
  intro v hv
  cases hv
  exact h

theorem buffers_bind {β : Type} {u : Option β} {f : β → Option QsString} (h : ∀ b, u = some b → Buffers (f b)) :
    Buffers (u.bind f) := by
  intro o ho
  obtain ⟨b, hb, ho⟩ := Option.bind_eq_some_iff.1 ho
  exact h b hb o ho

theorem buffers_ite {c : Prop} [Decidable c] {u v : Option QsString} (hu : c → Buffers u) (hv : ¬c → Buffers v) :
    Buffers (if c then u else v) := by
  split
  · next hc => exact hu hc
  · next hc => exact hv hc

theorem buffers_ofBuffer (buf : List UInt8) (len : ℕ) : Buffers (QsString.ofBuffer buf len) := by
  intro o ho
  rw [QsString.ofBuffer] at ho
  split at ho
  · cases ho
    rfl
  · cases ho

theorem buffers_ofBytes (source : List UInt8) (length : ℕ) : Buffers (QsString.ofBytes source length) := by
  intro o ho
  rw [QsString.ofBytes] at ho
  split at ho
  · cases ho
    rfl
  · cases ho

theorem buffers_cat (mem : ℕ → UInt8) (u o : QsString) : Buffers (u.cat mem o) := by
  apply buffers_ite
  · intro _
    exact buffers_bind fun _ _ => buffers_bind fun _ _ => buffers_ofBuffer _ _
  · intro _
    exact buffers_bind fun _ _ => buffers_bind fun _ _ => buffers_ofBuffer _ _

theorem buffers_plus (mem : ℕ → UInt8) (u o : QsString) : Buffers (u.plus mem o) := by
  refine buffers_bind fun _ _ => buffers_bind fun _ _ => buffers_bind fun _ _ => buffers_bind fun _ _ => ?_
  exact buffers_ofBuffer _ _

/-- an object is put in place, and the others stay -/
theorem put_buffered {u : Option QsString} (hs : Buffered s) (hu : Buffers u) (h : put s x u = some t) :
    Buffered t := by
  obtain ⟨v, hv, rfl⟩ := Option.map_eq_some_iff.1 h
  intro y o hy
  by_cases hyx : y = x
  · rw [hyx, Function.update_self, Option.some.injEq] at hy
    exact hy ▸ hu v hv
  · rw [Function.update_of_ne hyx] at hy
    exact hs y o hy

theorem construct_some {u : Option QsString} (h : construct s x u = some t) : s x = none ∧ put s x u = some t := by
  rw [construct] at h
  split at h
  · next hx => exact ⟨hx, h⟩
  · cases h

theorem construct_buffered {u : Option QsString} (hs : Buffered s) (hu : Buffers u) (h : construct s x u = some t) :
    Buffered t :=
  put_buffered hs hu (construct_some h).2

/-- all but the operations that leave a string null keep the buffers -/
theorem step_buffered {op : Op} (hs : Buffered s) (hop : ¬LeavesNull s op) (h : step s op = some t) : Buffered t := by
  cases op with
  | defaultConstruct x => exact absurd (construct_some h).1 hop
  | fromPointer x source => exact construct_buffered hs (buffers_bind fun _ _ => buffers_ofBytes _ _) h
  | fromBytes x source length => exact construct_buffered hs (buffers_ofBytes _ _) h
  | fromInt x mem num => exact construct_buffered hs (buffers_bind fun _ _ => buffers_ofBuffer _ _) h
  | withSize x mem cap => exact construct_buffered hs (buffers_bind fun _ _ => buffers_ofBuffer _ _) h
  | copyConstruct x mem other =>
    apply construct_buffered hs _ h
    exact buffers_bind fun _ _ => buffers_bind fun _ _ => buffers_ofBuffer _ _
  | moveConstruct x other =>
    obtain ⟨o, ho, h⟩ := Option.bind_eq_some_iff.1 h
    obtain ⟨v, hv, -⟩ := Option.bind_eq_some_iff.1 h
    exact absurd ⟨(construct_some hv).1, Option.isSome_of_eq_some ho⟩ hop
  | copyAssign x mem other =>
    obtain ⟨u, hu, h⟩ := Option.bind_eq_some_iff.1 h
    obtain ⟨o, ho, h⟩ := Option.bind_eq_some_iff.1 h
    apply put_buffered hs _ h
    apply buffers_ite
    · intro _
      exact buffers_some (hs x u hu)
    · intro _
      exact buffers_bind fun _ _ => buffers_ofBuffer _ _
  | moveAssign x other =>
    obtain ⟨u, hu, h⟩ := Option.bind_eq_some_iff.1 h
    obtain ⟨o, ho, h⟩ := Option.bind_eq_some_iff.1 h
    -- a string that is moved to itself keeps its buffer
    have hsame : x = other := by
      by_contra hne
      exact hop ⟨hne, Option.isSome_of_eq_some hu, Option.isSome_of_eq_some ho⟩
    rw [QsString.moveAssign, if_pos (decide_eq_true hsame)] at h
    obtain ⟨v, hv, h⟩ := Option.bind_eq_some_iff.1 h
    exact put_buffered (put_buffered hs (buffers_some (hs x u hu)) hv) (buffers_some (hs x u hu)) h
  | cat x mem other =>
    obtain ⟨u, -, h⟩ := Option.bind_eq_some_iff.1 h
    obtain ⟨o, -, h⟩ := Option.bind_eq_some_iff.1 h
    exact put_buffered hs (buffers_cat mem u o) h
  | plus x mem y other =>
    apply construct_buffered hs _ h
    exact buffers_bind fun u _ => buffers_bind fun o _ => buffers_plus mem u o
  | sanitize x removeSet =>
    rw [step] at h
    split at h
    · cases h
    · obtain ⟨u, hu, h⟩ := Option.bind_eq_some_iff.1 h
      obtain ⟨r, -, h⟩ := Option.bind_eq_some_iff.1 h
      apply put_buffered hs _ h
      apply buffers_ite
      · intro _
        exact buffers_some (hs x u hu)
      · intro _
        exact buffers_bind fun _ _ => buffers_ofBuffer _ _

/-- an operation that leaves a string null is defined -/
theorem step_leavesNull {op : Op} (h : LeavesNull s op) : ∃ t x, step s op = some t ∧ t x = some .null := by
  cases op with
  | defaultConstruct x => exact ⟨_, x, if_pos h, Function.update_self ..⟩
  | moveConstruct x other =>
    obtain ⟨o, ho⟩ := Option.isSome_iff_exists.1 h.2
    refine ⟨Function.update (Function.update s x (some o)) other (some .null), other, ?_, Function.update_self ..⟩
    rw [step, ho, Option.bind_some, construct, if_pos h.1]
    rfl
  | moveAssign x other =>
    obtain ⟨u, hu⟩ := Option.isSome_iff_exists.1 h.2.1
    obtain ⟨o, ho⟩ := Option.isSome_iff_exists.1 h.2.2
    refine ⟨Function.update (Function.update s x (some o)) other (some .null), other, ?_, Function.update_self ..⟩
    rw [step, hu, Option.bind_some, ho, Option.bind_some, QsString.moveAssign, if_neg (by simpa using h.1)]
    rfl
  | _ => exact False.elim h

/-- `with_size` writes the NUL in its buffer unless it has no byte -/
theorem step_leavesNoByte (s : Objects) (op : Op) : Sized s op ↔ ¬LeavesNoByte s op := by
  cases op with
  | withSize x mem cap =>
    have hstep : ∀ hx : s x = none, (step s (.withSize x mem cap)).isSome = (QsString.withSize mem cap).isSome := by
      intro hx
      rw [step, construct, if_pos hx, put, Option.isSome_map]
    constructor
    · rintro h ⟨hx, hzero⟩
      have hsome := h hx
      rw [hstep hx, QsString.withSize_isSome] at hsome
      exact hsome hzero
    · intro h hx
      rw [hstep hx, QsString.withSize_isSome]
      exact fun hzero => h ⟨hx, hzero⟩
  | _ => exact iff_of_true trivial fun h => h.elim

/-! ## Sequences -/

/-- **Copies.** Every object can be copied, all through a sequence of operations, exactly when no string is
default-constructed, none is moved into another, and none is made by `with_size` of the largest `std::size_t`. -/
theorem allCopyable_iff (ops : List Op) :
    AllCopyable ops ↔ Meets step empty (fun _ s op => ¬LeavesNull s op ∧ ¬LeavesNoByte s op) ops := by
  constructor
  · intro h pre op post s hops hs
    refine ⟨fun hop => ?_, (step_leavesNoByte s op).1 (h.sized pre op post s hops hs)⟩
    obtain ⟨t, x, ht, hx⟩ := step_leavesNull hop
    have hpre : pre ++ [op] <+: ops := ⟨post, by rw [hops, List.append_assoc]; rfl⟩
    have hrun : run step empty (pre ++ [op]) = some t := by
      rw [run_snoc, hs]
      exact ht
    exact not_copyable_null t x (h.copyable _ t x _ hpre hrun hx)
  · intro h
    refine ⟨fun pre s x o hpre hs hx => ?_, fun pre op post s hops hs => ?_⟩
    · have hbuf : Buffered s := by
        refine run_induction (I := fun _ => Buffered) ?_ ?_ (h.initial hpre) hs
        · intro x o hx
          cases hx
        · intro _ s op t _ hop hs ht
          exact step_buffered hs hop.1 ht
      exact copyable_of_buffered hbuf hx
    · exact (step_leavesNoByte s op).2 (h pre op post s hops hs).2

/-- a default-constructed string, and one that was moved into another: a copy reads through the null pointer;
`with_size(2^64 - 1)`: its NUL is outside the buffer -/
theorem null_not_copyable :
    ¬AllCopyable [.defaultConstruct 0] ∧ ¬AllCopyable [.fromPointer 0 [97, 0], .moveConstruct 1 0] ∧
      ∀ mem, ¬AllCopyable [.withSize 0 mem (2 ^ 64 - 1)] := by
  refine ⟨?_, ?_, ?_⟩
  · intro h
    exact not_copyable_null _ 0 (h.copyable _ _ 0 .null (List.prefix_refl _) rfl rfl)
  · intro h
    exact not_copyable_null _ 0 (h.copyable _ _ 0 .null (List.prefix_refl _) rfl rfl)
  · intro mem h
    have hsized : Sized empty (.withSize 0 mem (2 ^ 64 - 1)) := h.sized [] _ [] empty rfl rfl
    exact (step_leavesNoByte empty _).1 hsized ⟨rfl, by decide⟩

end StringObjects

end K23Search.Text
