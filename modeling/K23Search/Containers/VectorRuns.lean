/-
`push` on every `qs::vector` (include/qs/vector.hpp) that a program can have: constructed with any capacity, copied,
moved to, moved from, and written to, with elements of any type.

- `Made` are these vectors;
- `append`: what a push means, on the elements alone.

Results:
- `kept`: behind pushes an element is what it would be, or it is no object any more;
- `pushes_iff`: a sequence of pushes stays in bounds and keeps the elements exactly when nothing is pushed, or the capacity
  is at least 2 and every push that grows the vector finds elements that their bytes are elsewhere too and an argument
  outside the vector, or next to nothing is pushed.
-/
import K23Search.Containers.Vector
import K23Search.Lib.Run

namespace K23Search

open K23Search.Lib

namespace Vector

variable {T : Type}

/-! ## The vectors of a program -/

/-- `vector(const vector &other)`, which runs the copy constructor of `T` on every element -/
def copy (other : Vector T) : Option (Vector T) :=
  if other.data.all Option.isSome then some ⟨other.data, other.capacity⟩ else none

/-- the move operations: the vector that takes the buffer, and `other` -/
def move (other : Vector T) : Vector T × Vector T := (other, ⟨[], 0⟩)

inductive Made (keeps stays : T → Bool) : Vector T → Prop
  | ofCapacity (capacity : ℕ) : Made keeps stays (ofCapacity capacity)
  | copy {v v'} : Made keeps stays v → v.copy = some v' → Made keeps stays v'
  | movedTo {v} : Made keeps stays v → Made keeps stays v.move.1
  | movedFrom {v} : Made keeps stays v → Made keeps stays v.move.2
  | push {v v' elem} : Made keeps stays v → v.push keeps elem = some v' → Made keeps stays v'
  | set {v v' i elem} : Made keeps stays v → v.set keeps stays i elem = some v' → Made keeps stays v'

/-- what the pushes keep at each capacity -/
structure Fits (v : Vector T) : Prop where
  lt : 2 ≤ v.capacity → v.size < v.capacity
  le : v.size ≤ v.capacity

variable {keeps stays : T → Bool} {v v' : Vector T} {elem : Ref T}

theorem Fits.roomy (h : v.Fits) (htwo : 2 ≤ v.capacity) : v.Roomy := ⟨h.lt htwo, htwo⟩

theorem Roomy.fits (h : v.Roomy) : v.Fits := ⟨fun _ => h.lt, Nat.le_of_lt h.lt⟩

theorem push_zero (hzero : v.capacity = 0) (elem : Ref T) : v.push keeps elem = none := by
  rw [push, maybeResize, if_pos hzero]
  rfl

/-- growing a buffer of one element does not make it larger -/
theorem push_one (hone : v.capacity = 1) (elem : Ref T) :
    v.push keeps elem = (elem.read []).bind fun x => if v.size = 0 then some ⟨[some x], 1⟩ else none := by
  have hgrow : v.Grows := by
    rw [Grows, hone, Nat.div_one]
    omega
  have hsize : (v.resize keeps).size = v.size := List.length_map _
  rw [push, maybeResize, if_neg (by omega), if_pos hgrow, if_pos hgrow, Option.bind_some]
  congr 1
  funext x
  rw [place, hsize, show (v.resize keeps).capacity = 1 by rw [resize, hone]]
  simp only [Nat.lt_one_iff]
  split
  · next hempty =>
    rw [resize, List.length_eq_zero_iff.1 hempty]
    rfl
  · rfl

/-- a push on a vector with room reads its argument -/
theorem push_some (h : v.Roomy) (hp : v.push keeps elem = some v') :
    ∃ x, elem.read (if v.Grows then [] else v.data) = some x ∧ v'.data = v.moved keeps ++ [some x] ∧ v'.Roomy := by
  obtain ⟨u, -, hread⟩ := Option.bind_eq_some_iff.1 hp
  obtain ⟨x, hx, -⟩ := Option.bind_eq_some_iff.1 hread
  obtain ⟨w, hw, hdata, hroomy⟩ := push_spec _ h hx
  obtain rfl : w = v' := Option.some.inj (hw.symm.trans hp)
  exact ⟨x, hx, hdata, hroomy⟩

theorem Fits.push (h : v.Fits) (hp : v.push keeps elem = some v') : v'.Fits := by
  rcases Nat.lt_or_ge v.capacity 2 with hlt | htwo
  · rcases Nat.lt_or_ge v.capacity 1 with hzero | hone
    · rw [push_zero (by omega)] at hp
      cases hp
    · rw [push_one (by omega)] at hp
      obtain ⟨x, -, hp⟩ := Option.bind_eq_some_iff.1 hp
      split_ifs at hp
      cases hp
      exact ⟨fun hc => absurd hc (by simp), Nat.le_refl 1⟩
  · obtain ⟨x, -, -, hroomy⟩ := push_some (h.roomy htwo) hp
    exact hroomy.fits

theorem Fits.set (h : v.Fits) {i : ℕ} (hs : v.set keeps stays i elem = some v') : v'.Fits := by
  rw [Vector.set] at hs
  split_ifs at hs
  · obtain ⟨y, -, hs⟩ := Option.bind_eq_some_iff.1 hs
    obtain ⟨x, -, rfl⟩ := Option.map_eq_some_iff.1 hs
    exact ⟨fun hc => by simpa [size] using h.lt hc, by simpa [size] using h.le⟩
  · exact h.push hs

theorem Made.fits (h : v.Made keeps stays) : v.Fits := by
  induction h with
  | ofCapacity capacity => exact ⟨fun hc => Nat.lt_of_lt_of_le Nat.zero_lt_two hc, Nat.zero_le _⟩
  | copy _ hc ih =>
    rw [Vector.copy] at hc
    split_ifs at hc
    cases hc
    exact ih
  | movedTo _ ih => exact ih
  | movedFrom _ _ => exact ⟨fun hc => absurd hc (by simp [move]), Nat.le_refl 0⟩
  | push _ hp ih => exact ih.push hp
  | set _ hs ih => exact ih.set hs

/-! ## Pushes -/

/-- the elements and what the argument denotes -/
def append (data : List (Option T)) (elem : Ref T) : Option (List (Option T)) :=
  (elem.read data).map fun x => data ++ [some x]

/-- all pushes are defined, and `at` then shows the elements of `v` and those pushed, in order -/
def Pushes (keeps : T → Bool) (v : Vector T) (elems : List (Ref T)) : Prop :=
  ∃ v' all, run (push keeps) v elems = some v' ∧ run append v.data elems = some all ∧
    v'.size = v.size + elems.length ∧ ∀ i, v'.at i = all[i]?.join

variable {elems : List (Ref T)} {data all : List (Option T)}

theorem append_length (h : run append data elems = some all) : all.length = data.length + elems.length := by
  induction elems using List.reverseRecOn generalizing all with
  | nil =>
    cases h
    rfl
  | append_singleton elems elem ih =>
    obtain ⟨most, hmost, hlast⟩ := run_snoc_some h
    obtain ⟨x, -, rfl⟩ := Option.map_eq_some_iff.1 hlast
    rw [List.length_append, List.length_append, ih hmost, Nat.add_assoc]
    rfl

/-- the elements are those of a list, but for some that are no objects -/
structure Kept (data all : List (Option T)) : Prop where
  length_eq : data.length = all.length
  same : ∀ (i : ℕ) (x : T), data[i]? = some (some x) → all[i]? = some (some x)

theorem Kept.moved (h : Kept v.data all) : Kept (v.moved keeps) all := by
  refine ⟨(moved_length keeps v).trans h.length_eq, fun i x hi => h.same i x ?_⟩
  rw [Vector.moved] at hi
  split at hi
  · rw [List.getElem?_map] at hi
    obtain ⟨c, hc, hx⟩ := Option.map_eq_some_iff.1 hi
    rw [hc, (Option.filter_eq_some_iff.1 hx).1]
  · exact hi

theorem Kept.snoc (h : Kept data all) (x : T) : Kept (data ++ [some x]) (all ++ [some x]) := by
  refine ⟨by rw [List.length_append, List.length_append, h.length_eq], fun i y hi => ?_⟩
  rcases Nat.lt_or_ge i data.length with hlt | hge
  · rw [List.getElem?_append_left hlt] at hi
    rw [List.getElem?_append_left (h.length_eq ▸ hlt)]
    exact h.same i y hi
  · rw [List.getElem?_append_right hge] at hi
    rwa [List.getElem?_append_right (h.length_eq ▸ hge), ← h.length_eq]

/-- lists that keep each other's elements are the same -/
theorem Kept.antisymm (h : Kept data all) (h' : Kept all data) : data = all := by
  apply List.ext_getElem?
  intro i
  cases hi : data[i]? with
  | none => exact (List.getElem?_eq_none (h.length_eq ▸ List.getElem?_eq_none_iff.1 hi)).symm
  | some c =>
    cases c with
    | some x => exact (h.same i x hi).symm
    | none =>
      obtain ⟨hlt, -⟩ := List.getElem?_eq_some_iff.1 hi
      cases hj : all[i]? with
      | none => exact absurd (List.getElem?_eq_none_iff.1 hj) (Nat.not_le.2 (h.length_eq ▸ hlt))
      | some c =>
        cases c with
        | none => rfl
        | some x => rw [h'.same i x hj] at hi; cases hi

theorem kept_of_join (hlen : data.length = all.length) (h : ∀ i : ℕ, data[i]?.join = all[i]?.join) : Kept data all := by
  refine ⟨hlen, fun i x hi => ?_⟩
  have hj := h i
  rw [hi] at hj
  exact Option.join_eq_some_iff.1 hj.symm

/-- what is read of the elements that are left is what the argument denotes -/
theorem Kept.read (h : Kept data all) {elem : Ref T} {x : T} (hx : elem.read data = some x) :
    elem.read all = some x := by
  cases elem with
  | object y => exact hx
  | element i =>
    rw [Ref.read, Option.join_eq_some_iff] at hx ⊢
    exact h.same i x hx

/-- **Pushes** leave what they should, but for elements that are no objects any more. -/
theorem kept (h : v.Roomy) (hr : run (push keeps) v elems = some v') (ha : run append v.data elems = some all) :
    v'.Roomy ∧ Kept v'.data all := by
  induction elems using List.reverseRecOn generalizing v' all with
  | nil =>
    cases hr
    cases ha
    exact ⟨h, rfl, fun _ _ hi => hi⟩
  | append_singleton elems elem ih =>
    obtain ⟨u, hu, hpush⟩ := run_snoc_some hr
    obtain ⟨most, hmost, hlast⟩ := run_snoc_some ha
    obtain ⟨x, hx, rfl⟩ := Option.map_eq_some_iff.1 hlast
    obtain ⟨hroomy, hkept⟩ := ih hu hmost
    obtain ⟨y, hy, hdata, hroomy'⟩ := push_some hroomy hpush
    obtain rfl : x = y := by
      have hsame : elem.read most = some y := by
        split at hy
        · cases elem with
          | object z => exact hy
          | element i => cases hy
        · exact hkept.read hy
      exact Option.some.inj (hx.symm.trans hsame)
    rw [hdata]
    exact ⟨hroomy', hkept.moved.snoc x⟩

/-- a push that grows the vector finds elements that their bytes are elsewhere too, and an argument outside the vector -/
def Survives (keeps : T → Bool) (v : Vector T) (elem : Ref T) : Prop := v.Grows → v.Relocates keeps ∧ elem.IsObject

/-- with room, the pushes leave the elements exactly when every growth does -/
theorem run_push_iff (h : v.Roomy) (ha : run append v.data elems = some all) :
    (∃ v', run (push keeps) v elems = some v' ∧ v'.data = all) ↔
      Meets (push keeps) v (fun _ => Survives keeps) elems := by
  induction elems using List.reverseRecOn generalizing all with
  | nil =>
    cases ha
    exact iff_of_true ⟨v, rfl, rfl⟩ fun pre b post u hu => by simp at hu
  | append_singleton elems elem ih =>
    obtain ⟨most, hmost, hlast⟩ := run_snoc_some ha
    obtain ⟨x, hx, rfl⟩ := Option.map_eq_some_iff.1 hlast
    constructor
    · rintro ⟨v', hr, hdata⟩
      obtain ⟨u, hu, hpush⟩ := run_snoc_some hr
      obtain ⟨hroomy, hkept⟩ := kept h hu hmost
      obtain ⟨y, hy, hdata', -⟩ := push_some hroomy hpush
      obtain ⟨hmoved, -⟩ := List.append_inj' (hdata'.symm.trans hdata) rfl
      -- an element that is not kept now is not there later
      have hself : Kept u.data u.data := ⟨rfl, fun _ _ hi => hi⟩
      have hall : u.data = most := hkept.antisymm (hmoved ▸ hself.moved)
      intro pre a post w hsplit hw
      rcases List.eq_nil_or_concat' post with rfl | ⟨post, b, rfl⟩
      · obtain ⟨rfl, hlast⟩ := List.append_inj' hsplit rfl
        cases hlast
        obtain rfl : w = u := Option.some.inj (hw.symm.trans hu)
        intro hgrow
        refine ⟨moved_eq_iff.1 (hmoved.trans hall.symm) hgrow, ?_⟩
        rw [if_pos hgrow] at hy
        cases elem with
        | object z => trivial
        | element i => cases hy
      · rw [← List.cons_append, ← List.append_assoc] at hsplit
        obtain ⟨rfl, -⟩ := List.append_inj' hsplit rfl
        exact (ih hmost).1 ⟨u, hu, hall⟩ pre a post w rfl hw
    · intro hm
      obtain ⟨u, hu, rfl⟩ := (ih hmost).2 hm.init
      obtain ⟨hroomy, -⟩ := kept h hu hmost
      have hsurvives := hm.last hu
      have hread : elem.read (if u.Grows then [] else u.data) = some x := by
        split
        · next hgrow =>
          have hobj := (hsurvives hgrow).2
          cases elem with
          | object z => exact hx
          | element i => exact hobj.elim
        · exact hx
      obtain ⟨v', hv', hdata, -⟩ := push_spec keeps hroomy hread
      rw [moved_eq_iff.2 fun hgrow => (hsurvives hgrow).1] at hdata
      exact ⟨v', by rw [run_snoc, hu]; exact hv', hdata⟩

theorem pushes_of_data (hr : run (push keeps) v elems = some v') (ha : run append v.data elems = some all)
    (hdata : v'.data = all) : v.Pushes keeps elems :=
  ⟨v', all, hr, ha, by rw [size, hdata, append_length ha]; rfl, fun i => by rw [at_eq, hdata]⟩

/-- `at` shows the elements that are left -/
theorem Pushes.final (h : v.Pushes keeps elems) (ha : run append v.data elems = some all) :
    ∃ v', run (push keeps) v elems = some v' ∧ v'.data = all := by
  obtain ⟨v', all', hr, ha', hsize, hat⟩ := h
  obtain rfl : all = all' := Option.some.inj (ha.symm.trans ha')
  refine ⟨v', hr, ?_⟩
  have hlen : v'.data.length = all.length := hsize.trans (append_length ha).symm
  have hsame : ∀ i : ℕ, v'.data[i]?.join = all[i]?.join := fun i => (at_eq v' i).symm.trans (hat i)
  exact (kept_of_join hlen hsame).antisymm (kept_of_join hlen.symm fun i => (hsame i).symm)

/-- **Pushes.** A sequence of pushes on a vector of a program is in bounds, and leaves its elements followed by those
pushed, exactly when nothing is pushed, or the capacity is at least 2 and every growth finds elements that their bytes
are elsewhere too and an argument outside the vector, or one element is pushed on an empty vector of capacity 1. -/
theorem pushes_iff (h : v.Made keeps stays) (ha : (run append v.data elems).isSome = true) :
    v.Pushes keeps elems ↔ elems = [] ∨ (2 ≤ v.capacity ∧ Meets (push keeps) v (fun _ => Survives keeps) elems) ∨
      (v.capacity = 1 ∧ v.size = 0 ∧ elems.length = 1) := by
  obtain ⟨all, ha⟩ := Option.isSome_iff_exists.1 ha
  constructor
  · intro hp
    cases elems with
    | nil => exact .inl rfl
    | cons elem elems =>
      rcases Nat.lt_or_ge v.capacity 2 with hlt | htwo
      · obtain ⟨v', -, hv', -⟩ := hp
        obtain ⟨u, hu, hv'⟩ := Option.bind_eq_some_iff.1 hv'
        rcases Nat.lt_or_ge v.capacity 1 with hzero | hone
        · rw [push_zero (by omega)] at hu
          cases hu
        · have hone : v.capacity = 1 := by omega
          rw [push_one hone] at hu
          obtain ⟨x, -, hu⟩ := Option.bind_eq_some_iff.1 hu
          split_ifs at hu with hempty
          cases hu
          cases elems with
          | nil => exact .inr (.inr ⟨hone, hempty, rfl⟩)
          | cons elem' elems =>
            -- the buffer of one element is full
            obtain ⟨w, hw, -⟩ := Option.bind_eq_some_iff.1 hv'
            rw [push_one rfl] at hw
            obtain ⟨y, -, hw⟩ := Option.bind_eq_some_iff.1 hw
            cases hw
      · exact .inr (.inl ⟨htwo, (run_push_iff (h.fits.roomy htwo) ha).1 (Pushes.final hp ha)⟩)
  · rintro (rfl | ⟨htwo, hm⟩ | ⟨hone, hempty, hlen⟩)
    · cases ha
      exact pushes_of_data (v := v) rfl rfl rfl
    · obtain ⟨v', hr, hdata⟩ := (run_push_iff (h.fits.roomy htwo) ha).2 hm
      exact pushes_of_data hr ha hdata
    · obtain ⟨elem, rfl⟩ := List.length_eq_one_iff.1 hlen
      have hnil : v.data = [] := List.length_eq_zero_iff.1 hempty
      obtain ⟨most, hmost, hlast⟩ := run_snoc_some (show run append v.data ([] ++ [elem]) = some all from ha)
      cases hmost
      obtain ⟨x, hx, rfl⟩ := Option.map_eq_some_iff.1 hlast
      have hpush : v.push keeps elem = some ⟨[some x], 1⟩ := by
        rw [push_one hone, ← hnil, hx, Option.bind_some, if_pos hempty]
      have hrun : run (push keeps) v [elem] = some ⟨[some x], 1⟩ := by
        rw [run, hpush]
        rfl
      exact pushes_of_data hrun ha (by rw [hnil]; rfl)

/-- numbers, which their bytes are anywhere -/
theorem pushes_default : (ofCapacity 10 : Vector ℕ).Pushes (fun _ => true) ((List.range 100).map .object) := by
  have hmade : (ofCapacity 10 : Vector ℕ).Made (fun _ => true) (fun _ => true) := .ofCapacity 10
  refine (pushes_iff hmade (by decide +kernel)).2 (.inr (.inl ⟨by decide, fun pre a post u hu _ _ => ?_⟩))
  refine ⟨fun _ _ => rfl, ?_⟩
  have hmem : a ∈ (List.range 100).map (Ref.object (T := ℕ)) := hu ▸ List.mem_append_right pre List.mem_cons_self
  obtain ⟨x, -, rfl⟩ := List.mem_map.1 hmem
  trivial

/-- **Small capacities.** With capacity 1 the second push writes past the buffer; with capacity 0, also that of a vector
that was moved from, the first one divides by zero. **Growths.** The tenth push on a default vector grows it: then
objects that their bytes are not elsewhere are lost, and a reference to the first element dangles. -/
theorem push_small : ¬ (ofCapacity 1 : Vector ℕ).Pushes (fun _ => true) [.object 7, .object 8] ∧
    ¬ (ofCapacity 0 : Vector ℕ).Pushes (fun _ => true) [.object 7] ∧
    ¬ (ofCapacity 10 : Vector ℕ).move.2.Pushes (fun _ => true) [.object 7] ∧
    ¬ (ofCapacity 10 : Vector Char).Pushes (fun _ => false) (List.replicate 10 (.object 'a')) ∧
    ¬ (ofCapacity 10 : Vector ℕ).Pushes (fun _ => true) (List.replicate 9 (.object 7) ++ [.element 0]) := by
  refine ⟨?_, ?_, ?_, ?_, ?_⟩
  · rintro ⟨v', all, hv', -⟩
    cases hv'
  · rintro ⟨v', all, hv', -⟩
    cases hv'
  · rintro ⟨v', all, hv', -⟩
    cases hv'
  · rintro ⟨v', all, hv', ha, -, hat⟩
    cases hv'
    cases ha
    cases hat 0
  · rintro ⟨v', all, hv', -⟩
    cases hv'

end Vector

end K23Search
