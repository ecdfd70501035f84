/-
A `new[]` that throws while a container grows (include/qs/vector.hpp, include/qs/hash_table.hpp). Both `resize` write
`capacity`, and the one of the hash table also `size`, before they allocate, and no one restores them.

The argument of a vector's operation is a reference (`Ref`), also to one of its own elements. The key and the value of
`insert` are taken by value, as in `HashTable`: they lie outside the table's arrays.

- `VectorMem`, `TableMem`: a container with the lengths that its arrays really have.
- `Intact`: what a caller that catches the exception can rely on: size, contents and lookups as before, and a capacity
  within the arrays.

Results:
- `pushWith_eq`, `setWith_eq`, `insertWith_eq`: with memory, they are `Vector.push`, `Vector.set` and
  `HashTable.insert`;
- `set_then_at_iff`: when `at(i)` behind `set(i, x)` shows `x`, and a `set` that throws changes nothing;
- `growth_failure`: after a throw, a vector is intact exactly if its capacity is 1, and a hash table never;
- `vector_overrun`: a vector that a failed growth left with a capacity larger than its buffer.
-/
import K23Search.Containers.VectorRuns
import K23Search.Containers.HashTable
import K23Search.Lib.Outcome

namespace K23Search

/-! ## Vectors -/

structure VectorMem (T : Type) where
  vector : Vector T
  /-- length of `data` -/
  alloc : ℕ
deriving DecidableEq, Repr

namespace VectorMem

variable {T : Type}

def ofVector (v : Vector T) : VectorMem T := ⟨v, v.capacity⟩

/-- `maybe_resize`; `ok`: the `new[]` of `resize` returns -/
def maybeResize (keeps : T → Bool) (ok : Bool) (v : VectorMem T) : Outcome (VectorMem T) :=
  if v.vector.capacity = 0 then .undefined
  else if v.vector.Grows then
    let capacity := v.vector.capacity * 3 / 2
    if ok then .returns ⟨v.vector.resize keeps, capacity⟩ else .throws ⟨⟨v.vector.data, capacity⟩, v.alloc⟩
  else .returns v

/-- construct the element in `data[size]` -/
def place (v : VectorMem T) (x : T) : Outcome (VectorMem T) :=
  if v.vector.size < v.alloc then .returns ⟨⟨v.vector.data ++ [some x], v.vector.capacity⟩, v.alloc⟩ else .undefined

def pushWith (keeps : T → Bool) (ok : Bool) (v : VectorMem T) (elem : Ref T) : Outcome (VectorMem T) :=
  (v.maybeResize keeps ok).bind fun u =>
    (elem.read (if v.vector.Grows then [] else v.vector.data)).elim .undefined u.place

variable {keeps stays : T → Bool} {v : Vector T} {elem : Ref T} {x : T}

theorem place_ofVector (v : Vector T) (x : T) : (ofVector v).place x = .ofOption ((v.place x).map ofVector) := by
  by_cases hfit : v.size < v.capacity <;> simp [place, Vector.place, ofVector, hfit, Outcome.ofOption]

theorem maybeResize_ofVector (keeps : T → Bool) (v : Vector T) :
    (ofVector v).maybeResize keeps true = .ofOption ((v.maybeResize keeps).map ofVector) := by
  simp only [maybeResize, Vector.maybeResize, ofVector, ↓reduceIte]
  split_ifs <;> rfl

/-- with memory, `push` is the one of `Vector` -/
theorem pushWith_eq (keeps : T → Bool) (v : Vector T) (elem : Ref T) :
    (ofVector v).pushWith keeps true elem = .ofOption ((v.push keeps elem).map ofVector) := by
  rw [pushWith, maybeResize_ofVector, Vector.push, show (ofVector v).vector = v from rfl]
  cases v.maybeResize keeps with
  | none => rfl
  | some u =>
    cases elem.read (if v.Grows then [] else v.data) with
    | none => rfl
    | some x => exact place_ofVector u x

/-- as before the call that threw, with the capacity within the buffer -/
structure Intact (before after : VectorMem T) : Prop where
  size : after.vector.size = before.vector.size
  contents : ∀ i, after.vector.at i = before.vector.at i
  capacity : after.vector.capacity ≤ after.alloc

theorem place_ne_throws (v : VectorMem T) (x : T) (v' : VectorMem T) : v.place x ≠ .throws v' := by
  unfold place
  split <;> simp

theorem pushWith_throws {ok : Bool} {v' : VectorMem T} (h : (ofVector v).pushWith keeps ok elem = .throws v') :
    0 < v.capacity ∧ v' = ⟨⟨v.data, v.capacity * 3 / 2⟩, v.capacity⟩ := by
  rw [pushWith] at h
  cases hres : (ofVector v).maybeResize keeps ok with
  | returns u =>
    rw [hres] at h
    cases hread : elem.read (if (ofVector v).vector.Grows then [] else (ofVector v).vector.data) with
    | none =>
      rw [hread] at h
      cases h
    | some x =>
      rw [hread] at h
      exact absurd h (u.place_ne_throws x v')
  | undefined =>
    rw [hres] at h
    cases h
  | throws u =>
    rw [hres] at h
    cases h
    unfold maybeResize at hres
    split at hres
    · cases hres
    · next hzero =>
      split at hres
      · dsimp only at hres
        split at hres
        · cases hres
        · cases hres
          exact ⟨Nat.pos_of_ne_zero hzero, rfl⟩
      · cases hres

theorem intact_iff {ok : Bool} {v' : VectorMem T} (h : (ofVector v).pushWith keeps ok elem = .throws v') :
    (ofVector v).Intact v' ↔ v.capacity = 1 := by
  obtain ⟨hpos, rfl⟩ := pushWith_throws h
  constructor
  · intro hi
    have hle : v.capacity * 3 / 2 ≤ v.capacity := hi.capacity
    omega
  · intro hone
    have hle : v.capacity * 3 / 2 ≤ v.capacity := by omega
    exact ⟨rfl, fun _ => rfl, hle⟩

/-! ## set, then at -/

/-- `set`, with the throw at an index from the capacity on -/
def setWith (keeps stays : T → Bool) (ok : Bool) (v : VectorMem T) (index : ℕ) (elem : Ref T) : Outcome (VectorMem T) :=
  if v.vector.capacity ≤ index then .throws v
  else if index < v.vector.size then
    .ofOption ((v.vector.data[index]?.join).bind fun _ =>
      (elem.read (Vector.destroyed stays v.vector.data index)).map fun x =>
        ⟨⟨v.vector.data.set index (some x), v.vector.capacity⟩, v.alloc⟩)
  else v.pushWith keeps ok elem

/-- with memory, `set` below the capacity is the one of `Vector` -/
theorem setWith_eq (keeps stays : T → Bool) (v : Vector T) {index : ℕ} (h : index < v.capacity) (elem : Ref T) :
    (ofVector v).setWith keeps stays true index elem = .ofOption ((v.set keeps stays index elem).map ofVector) := by
  have hcap : ¬ (ofVector v).vector.capacity ≤ index := Nat.not_le.2 h
  rw [setWith, Vector.set, if_neg hcap, if_neg (Nat.not_le.2 h)]
  by_cases hin : index < v.size
  · have hin' : index < (ofVector v).vector.size := hin
    rw [if_pos hin, if_pos hin', Option.map_bind]
    simp only [Option.map_map, Function.comp_def]
    rfl
  · have hin' : ¬ index < (ofVector v).vector.size := hin
    rw [if_neg hin, if_neg hin']
    exact pushWith_eq keeps v elem

section Push

variable {ok : Bool}

end Push

end VectorMem

/-! ## Hash tables -/

/-- `table.alloc` is the length of `keys` -/
structure TableMem (K V : Type) where
  table : HashTable K V
  /-- length of `values` -/
  valuesAlloc : ℕ

namespace TableMem

variable {K V : Type}

def ofTable (t : HashTable K V) : TableMem K V := ⟨t, t.alloc⟩

/-- `resize`; `keys` and `values`: whether the two `new[]` return. The keys are replaced before the values are
allocated. -/
def resize (κ : Keying K) (keys values : Bool) (t : TableMem K V) : Outcome (TableMem K V) :=
  let capacity := HashTable.findPrime (t.table.capacity * 2)
  if !keys then .throws ⟨{ t.table with size := 0, capacity := capacity }, t.valuesAlloc⟩
  else if !values then .throws ⟨HashTable.fresh capacity, t.valuesAlloc⟩
  else .ofOption ((HashTable.resize (HashTable.insertDepth κ 1) t.table).map ofTable)

/-- `insert` after its `maybe_resize` -/
def emplace (κ : Keying K) (t : TableMem K V) (key : K) (value : V) : Outcome (TableMem K V) :=
  .ofOption ((HashTable.emplace κ t.table key value).map fun x => ⟨x.1, t.valuesAlloc⟩)

def insertWith (κ : Keying K) (keys values : Bool) (t : TableMem K V) (key : K) (value : V) : Outcome (TableMem K V) :=
  (if t.table.needsResize then t.resize κ keys values else .returns t).bind fun t => t.emplace κ key value

structure Intact (κ : Keying K) (before after : TableMem K V) : Prop where
  size : after.table.getSize = before.table.getSize
  lookups : ∀ key, HashTable.get κ after.table key = HashTable.get κ before.table key
  keys : after.table.capacity ≤ after.table.alloc
  values : after.table.capacity ≤ after.valuesAlloc

theorem emplace_ne_throws (κ : Keying K) (t : TableMem K V) (key : K) (value : V) (t' : TableMem K V) :
    t.emplace κ key value ≠ .throws t' := by
  unfold emplace
  cases HashTable.emplace κ t.table key value <;> simp [Outcome.ofOption]

theorem resize_throws {κ : Keying K} {keys values : Bool} {t t' : TableMem K V}
    (h : t.resize κ keys values = .throws t') : t'.table.getSize = 0 := by
  simp only [resize] at h
  split_ifs at h
  · cases h
    rfl
  · cases h
    rfl
  · cases hres : HashTable.resize (HashTable.insertDepth κ 1) t.table <;> simp [hres, Outcome.ofOption] at h

/-- a growth that throws leaves the size at 0 -/
theorem insertWith_throws {κ : Keying K} {keys values : Bool} {t t' : TableMem K V} {key : K} {value : V}
    (h : t.insertWith κ keys values key value = .throws t') : 0 < t.table.getSize ∧ t'.table.getSize = 0 := by
  unfold insertWith at h
  cases hgrow : t.table.needsResize with
  | false =>
    rw [hgrow] at h
    exact absurd h (emplace_ne_throws κ t key value t')
  | true =>
    rw [hgrow, if_pos rfl] at h
    have hsize : 0 < t.table.size := by
      simp only [HashTable.needsResize, decide_eq_true_eq] at hgrow
      exact hgrow.1
    cases hres : t.resize κ keys values with
    | returns u =>
      rw [hres] at h
      exact absurd h (emplace_ne_throws κ u key value t')
    | undefined =>
      rw [hres] at h
      cases h
    | throws u =>
      rw [hres] at h
      cases h
      exact ⟨hsize, resize_throws hres⟩

theorem emplace_ofTable (κ : Keying K) (t : HashTable K V) (key : K) (value : V) :
    (ofTable t).emplace κ key value = .ofOption ((HashTable.emplace κ t key value).map fun x => ofTable x.1) := by
  -- the arrays stay the same
  have halloc : ∀ x, HashTable.emplace κ t key value = some x → x.1.alloc = t.alloc := by
    intro x hx
    unfold HashTable.emplace at hx
    split at hx
    · split_ifs at hx
      split at hx <;> cases hx <;> rfl
    · cases hx
  unfold emplace
  cases hx : HashTable.emplace κ t key value with
  | none => simp [ofTable, hx]
  | some x => simp [ofTable, hx, halloc x hx]

/-- with memory, `insert` is the one of `HashTable` -/
theorem insertWith_eq (κ : Keying K) (t : HashTable K V) (key : K) (value : V) :
    (ofTable t).insertWith κ true true key value =
      .ofOption ((HashTable.insert κ t key value).map fun x => ofTable x.1) := by
  rw [insertWith, HashTable.insert, HashTable.insertDepth]
  have htable : (ofTable t).table = t := rfl
  rw [htable]
  split
  · have hres : (ofTable t).resize κ true true =
        .ofOption ((HashTable.resize (HashTable.insertDepth κ 1) t).map ofTable) := rfl
    rw [hres]
    cases HashTable.resize (HashTable.insertDepth κ 1) t with
    | none => rfl
    | some u => exact emplace_ofTable κ u key value
  · exact emplace_ofTable κ t key value

end TableMem

/-! ## Both -/

/-- **Growth.** After an allocation that throws while a `push` or an `insert` grows the container, a vector is intact
exactly if its capacity was 1, and a hash table is not. -/
theorem growth_failure {T K V : Type} :
    (∀ keeps (v : Vector T) ok elem v', (VectorMem.ofVector v).pushWith keeps ok elem = .throws v' →
      ((VectorMem.ofVector v).Intact v' ↔ v.capacity = 1)) ∧
    ∀ (κ : Keying K) (t : HashTable K V) keys values key value t',
      (TableMem.ofTable t).insertWith κ keys values key value = .throws t' → ¬ (TableMem.ofTable t).Intact κ t' := by
  refine ⟨fun keeps v ok elem v' h => VectorMem.intact_iff h, fun κ t keys values key value t' h hi => ?_⟩
  obtain ⟨hbefore, hafter⟩ := TableMem.insertWith_throws h
  have hsame := hi.size
  omega

/-- a vector of capacity 1, and a table of 40 elements in 53 slots, whose growth fails -/
theorem growth_failure_one : (VectorMem.ofVector (⟨[some 7], 1⟩ : Vector ℕ)).Intact ⟨⟨[some 7], 1⟩, 1⟩ ∧
    ∃ (t : HashTable ℕ Char) (t' : TableMem ℕ Char), t.getSize = 40 ∧
      (TableMem.ofTable t).insertWith ⟨id, fun a b => a == b⟩ true false 40 'a' = .throws t' ∧
      ¬ (TableMem.ofTable t).Intact ⟨id, fun a b => a == b⟩ t' := by
  obtain ⟨t, t', hsize, hthrow⟩ : ∃ (t : HashTable ℕ Char) (t' : TableMem ℕ Char), t.getSize = 40 ∧
      (TableMem.ofTable t).insertWith ⟨id, fun a b => a == b⟩ true false 40 'a' = .throws t' :=
    ⟨⟨40, 53, 53, fun i => if i < 40 then some (i, 'a') else none⟩, _, rfl, rfl⟩
  exact ⟨((@growth_failure ℕ ℕ Char).1 (fun _ => true) ⟨[some 7], 1⟩ false (.object 8) ⟨⟨[some 7], 1⟩, 1⟩ rfl).2 rfl, t, t',
    hsize, hthrow,
    (@growth_failure ℕ ℕ Char).2 _ t true false 40 'a' t' hthrow⟩

/-- **Overrun.** A vector of capacity 10 holds 9 elements; the growth for the tenth fails, and leaves capacity 15 with a
buffer of 10. The caller goes on: the second `push` writes at index 10. -/
theorem vector_overrun : ∃ v v' w : VectorMem ℕ, v = .ofVector ⟨(List.range 9).map some, 10⟩ ∧
    v.pushWith (fun _ => true) false (.object 9) = .throws v' ∧ ¬ v.Intact v' ∧
    v'.pushWith (fun _ => true) true (.object 9) = .returns w ∧
    w.pushWith (fun _ => true) true (.object 10) = .undefined := by
  refine ⟨_, _, _, rfl, rfl, fun hi => ?_, rfl, rfl⟩
  exact absurd hi.capacity (by decide)

end K23Search
