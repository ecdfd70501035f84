/-
`qs::vector` (include/qs/vector.hpp). `capacity` is the length of the buffer. What the source leaves undefined or throws
on is `none`: the division by capacity 0 in `maybe_resize`, a write past the buffer, an index out of bounds, a read of
bytes that are no object, a read through a reference to an element after its buffer was freed or the element destroyed.

`resize` copies the bytes of the elements to the new buffer and runs no constructor and no destructor of `T`. `keeps` says
of an object whether its bytes are the object at another address too: always so for pointers and numbers, not so for an
object with a pointer into itself, such as a short `std::string`. An element that is not kept is `none` behind the growth.
`stays` says of an object whether it is still read in its place behind its destructor: so for pointers and numbers, whose
destructor does nothing, not for a `std::string`.

An argument is a reference (`Ref`), also to an element of the vector itself. The overloads for `T &&`, of objects
elsewhere, construct the same elements.

Results:
- `Roomy` vectors have a free place and capacity at least 2; `push_spec`, `set_spec` and `at_spec` keep that, so none of
  the operations fails at an index up to the size (`set`) or below it (`at`) that is given an object elsewhere.
-/
import Mathlib.Data.List.Basic
import Mathlib.Data.Nat.Notation

namespace K23Search

/-! ## Model -/

structure Vector (T : Type) where
  /-- `none`: bytes that are no object -/
  data : List (Option T)
  capacity : ℕ
deriving DecidableEq, Repr

/-- the argument of `push` and `set` -/
inductive Ref (T : Type) where
  /-- an object outside the vector -/
  | object (x : T)
  /-- the element at this index -/
  | element (i : ℕ)
deriving DecidableEq, Repr

/-- what the reference denotes, with these elements -/
def Ref.read {T : Type} (data : List (Option T)) : Ref T → Option T
  | .object x => some x
  | .element i => data[i]?.join

theorem Ref.read_object {T : Type} (x : T) (data : List (Option T)) : (Ref.object x).read data = some x := rfl

def Ref.IsObject {T : Type} : Ref T → Prop
  | .object _ => True
  | .element _ => False

namespace Vector

variable {T : Type}

def size (v : Vector T) : ℕ := v.data.length

def ofCapacity (capacity : ℕ) : Vector T := ⟨[], capacity⟩

/-- the test in `maybe_resize` -/
def Grows (v : Vector T) : Prop := 75 ≤ (v.size + 1) / v.capacity * 100

instance (v : Vector T) : Decidable v.Grows := inferInstanceAs (Decidable (_ ≤ _))

/-- grow to `(size_t)(capacity * 1.5)`, with the bytes of the elements -/
def resize (keeps : T → Bool) (v : Vector T) : Vector T := ⟨v.data.map (Option.filter keeps), v.capacity * 3 / 2⟩

def maybeResize (keeps : T → Bool) (v : Vector T) : Option (Vector T) :=
  if v.capacity = 0 then none else if v.Grows then some (v.resize keeps) else some v

/-- `new (&data[size]) T(elem)` and `size++` -/
def place (v : Vector T) (x : T) : Option (Vector T) :=
  if v.size < v.capacity then some ⟨v.data ++ [some x], v.capacity⟩ else none

/-- a growth frees the buffer that a reference to an element points into -/
def push (keeps : T → Bool) (v : Vector T) (elem : Ref T) : Option (Vector T) :=
  (v.maybeResize keeps).bind fun u => (elem.read (if v.Grows then [] else v.data)).bind u.place

/-- the elements behind the destructor of the one at the index -/
def destroyed (stays : T → Bool) (data : List (Option T)) (index : ℕ) : List (Option T) :=
  data.modify index (Option.filter stays)

/-- an index from the size on pushes, whatever the index; below, the old element is destroyed before the new one is
constructed from the argument -/
def set (keeps stays : T → Bool) (v : Vector T) (index : ℕ) (elem : Ref T) : Option (Vector T) :=
  if v.capacity ≤ index then none
  else if index < v.size then
    (v.data[index]?.join).bind fun _ => (elem.read (destroyed stays v.data index)).map fun x =>
      ⟨v.data.set index (some x), v.capacity⟩
  else v.push keeps elem

def «at» (v : Vector T) (index : ℕ) : Option T := if v.size ≤ index then none else v.data[index]?.join

/-! ## Elements -/

section Elements

variable {keeps : T → Bool} {v : Vector T}

/-- the bytes of every element are the element at another address -/
def Relocates (keeps : T → Bool) (v : Vector T) : Prop := ∀ x, some x ∈ v.data → keeps x = true

theorem map_filter_eq_self {data : List (Option T)} :
    data.map (Option.filter keeps) = data ↔ ∀ x, some x ∈ data → keeps x = true := by
  induction data with
  | nil => simp
  | cons c data ih =>
    rw [List.map_cons, List.cons.injEq, ih]
    cases c <;> simp

/-- the elements behind `maybe_resize` -/
def moved (keeps : T → Bool) (v : Vector T) : List (Option T) := if v.Grows then v.data.map (Option.filter keeps) else v.data

@[simp] theorem moved_length (keeps : T → Bool) (v : Vector T) : (v.moved keeps).length = v.size := by
  rw [moved]
  split
  · exact List.length_map _
  · rfl

theorem moved_eq_iff : v.moved keeps = v.data ↔ (v.Grows → v.Relocates keeps) := by
  rw [moved]
  split
  · next hgrow => exact map_filter_eq_self.trans ⟨fun h _ => h, fun h => h hgrow⟩
  · next hgrow => exact iff_of_true rfl fun h => absurd h hgrow

theorem at_eq (v : Vector T) (i : ℕ) : v.at i = v.data[i]?.join := by
  rw [«at»]
  split
  · next h =>
    have hout : v.data[i]? = none := List.getElem?_eq_none h
    rw [hout]
    rfl
  · rfl

end Elements

/-! ## Room -/

/-- there is a place for one more element, and growing makes the buffer larger -/
structure Roomy (v : Vector T) : Prop where
  lt : v.size < v.capacity
  two_le : 2 ≤ v.capacity

theorem roomy_ofCapacity {capacity : ℕ} (h : 2 ≤ capacity) : (ofCapacity capacity : Vector T).Roomy where
  lt := by simp only [ofCapacity, size, List.length_nil]; omega
  two_le := h

variable {keeps stays : T → Bool} {v : Vector T} {elem : Ref T} {x : T}

/-- after `maybe_resize` there are places for two more elements -/
theorem maybeResize_spec (h : v.Roomy) (keeps : T → Bool) :
    ∃ capacity, v.maybeResize keeps = some ⟨v.moved keeps, capacity⟩ ∧ v.size + 1 < capacity ∧ 2 ≤ capacity := by
  obtain ⟨hlt, htwo⟩ := h
  rw [maybeResize, if_neg (by omega), moved]
  split
  · exact ⟨_, rfl, by omega, by omega⟩
  · next hfit =>
    rw [Grows] at hfit
    refine ⟨v.capacity, rfl, ?_, htwo⟩
    by_contra hfull
    have hone : 1 ≤ (v.size + 1) / v.capacity := (Nat.le_div_iff_mul_le (by omega)).2 (by omega)
    omega

/-- a push of what the argument still denotes behind `maybe_resize` -/
theorem push_spec (keeps : T → Bool) (h : v.Roomy) (hread : elem.read (if v.Grows then [] else v.data) = some x) :
    ∃ v', v.push keeps elem = some v' ∧ v'.data = v.moved keeps ++ [some x] ∧ v'.Roomy := by
  obtain ⟨capacity, hres, hroom, htwo⟩ := maybeResize_spec h keeps
  have hlt : (⟨v.moved keeps, capacity⟩ : Vector T).size < capacity := by
    rw [size, moved_length]
    omega
  refine ⟨⟨v.moved keeps ++ [some x], capacity⟩, ?_, rfl, ?_, htwo⟩
  · rw [push, hres, Option.bind_some, hread, Option.bind_some, place, if_pos hlt]
  · rw [size, List.length_append, moved_length, List.length_singleton]
    exact hroom

/-- up to the size, `set` drops what was at the index and puts the object there -/
theorem set_spec (h : v.Roomy) (hobj : ∀ c ∈ v.data, c ≠ none) (hkeeps : v.Relocates keeps) {index : ℕ}
    (hi : index ≤ v.size) (x : T) :
    ∃ v', v.set keeps stays index (.object x) = some v' ∧ v'.data.take (index + 1) = v.data.take index ++ [some x] ∧
      v'.Roomy ∧ index < v'.size ∧ ∀ c ∈ v'.data, c = some x ∨ c ∈ v.data := by
  have hcap : ¬ v.capacity ≤ index := by have := h.lt; omega
  rw [set, if_neg hcap]
  by_cases hin : index < v.size
  · have hin' : index < v.data.length := hin
    obtain ⟨y, hy⟩ : ∃ y, v.data[index]? = some (some y) := by
      rw [List.getElem?_eq_getElem hin']
      obtain ⟨y, hy⟩ := Option.ne_none_iff_exists'.1 (hobj _ (List.getElem_mem hin'))
      exact ⟨y, by rw [hy]⟩
    have hset : (v.data[index]?.join).bind (fun _ => ((Ref.object x).read (destroyed stays v.data index)).map fun x =>
        (⟨v.data.set index (some x), v.capacity⟩ : Vector T)) = some ⟨v.data.set index (some x), v.capacity⟩ := by
      rw [hy]
      rfl
    refine ⟨_, (if_pos hin).trans hset, ?_, ⟨by simpa [size] using h.lt, h.two_le⟩, by simpa [size] using hin, ?_⟩
    · rw [List.take_add_one, List.take_set_of_le (Nat.le_refl index), List.getElem?_set_self hin']
      rfl
    · intro c hc
      exact (List.mem_or_eq_of_mem_set hc).symm
  · obtain rfl : index = v.size := by omega
    obtain ⟨v', hv', hdata, hroomy⟩ := push_spec keeps h (Ref.read_object x _)
    rw [moved_eq_iff.2 fun _ => hkeeps] at hdata
    refine ⟨v', by rw [if_neg hin, hv'], ?_, hroomy, by simp [size, hdata], fun c hc => ?_⟩
    · rw [hdata, size, List.take_of_length_le (by simp), List.take_length]
    · rw [hdata] at hc
      exact (List.mem_append.1 hc).symm.imp_left List.mem_singleton.1

theorem at_spec {index : ℕ} (h : v.data[index]? = some (some x)) : v.at index = some x := by
  rw [at_eq, h]
  rfl

end Vector

end K23Search
