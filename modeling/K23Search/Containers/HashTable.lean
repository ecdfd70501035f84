/-
`qs::hash_table` (include/qs/hash_table.hpp): open addressing with linear probing. The model follows the source: a slot
is a key with its value or a gravestone (`none`: free), the probe starts at `hash % capacity`, wraps at `capacity` and
gives up (-1) when it comes back to its start, except that the comparison with the start is skipped on the wrap itself.
`insert` first calls `maybe_resize`, and `resize` calls `insert` for every old slot.

What the source leaves undefined is `none` here: a modulo by capacity 0, a read outside the slot arrays, a failed
assertion, a probe that never ends. `alloc` is the length the two slot arrays really have.

Two things are assumed throughout. Keys and values are taken by value: the source takes references, and `maybe_resize`
may free the slots before they are read, so the arguments lie outside the table's own arrays. And the load factor, which
the source computes in `float`, is the exact quotient of size and capacity.

Results:
- `find_spec`: with a free slot, the probe ends at the first slot of the key's probe path that is free or holds the key;
- `insert_spec`: on a well-formed table, `insert` is defined, keeps the table well formed and is first-write-wins;
- `resize_spec`: growing keeps size and lookups and leaves room;
- `insertDepth_stable`: the recursion insert / resize / insert is two deep, so the depth bound of `insert` cuts nothing.
-/
import Mathlib.Data.List.Basic
import Mathlib.Data.List.Range
import Mathlib.Data.Nat.Find
import Mathlib.Data.Nat.ModEq
import Mathlib.Logic.Function.Basic
import Mathlib.Tactic.Ring
import Mathlib.Tactic.Linarith
import Mathlib.Tactic.SplitIfs

namespace K23Search

/-! ## Model -/

/-- the `Hash` and `KEq` parameters of the template -/
structure Keying (K : Type) where
  hash : K → ℕ
  eq : K → K → Bool

/-- the key equality is an equivalence and the hash respects it -/
structure Keying.Lawful {K : Type} (κ : Keying K) : Prop where
  refl : ∀ k, κ.eq k k = true
  symm : ∀ {a b}, κ.eq a b = true → κ.eq b a = true
  trans : ∀ {a b c}, κ.eq a b = true → κ.eq b c = true → κ.eq a c = true
  hash_eq : ∀ {a b}, κ.eq a b = true → κ.hash a = κ.hash b

structure HashTable (K V : Type) where
  size : ℕ
  capacity : ℕ
  /-- length of the arrays `keys` and `values` -/
  alloc : ℕ
  /-- `keys[i]` and `values[i]`; `none`: `keys[i].is_gravestone` -/
  slots : ℕ → Option (K × V)

namespace HashTable

def primes : List ℕ :=
  [53, 97, 193, 389, 769, 1543, 3079, 6151, 12289, 24593, 49157, 98317, 196613, 393241, 786433, 1572869, 3145739,
    6291469, 12582917, 25165843, 50331653, 100663319, 201326611, 402653189, 805306457, 1610612741]

/-- the first tabulated prime above `n`, and `n` itself past the table -/
def findPrime (n : ℕ) : ℕ := (primes.find? fun p => n < p).getD n

/-- the conversion `size_t` to `int` and back -/
def castInt (n : ℕ) : ℕ := if n % 2 ^ 32 < 2 ^ 31 then n % 2 ^ 32 else 2 ^ 64 - 2 ^ 32 + n % 2 ^ 32

variable {K V : Type}

/-- two new slot arrays of length `c`, every slot a gravestone -/
def fresh (c : ℕ) : HashTable K V := ⟨0, c, c, fun _ => none⟩

/-- `hash_table(std::size_t capacity)` -/
def ofCapacity (capacity : ℕ) : HashTable K V := fresh (findPrime (castInt capacity))

/-- how a probe ends -/
inductive Probe where
  | at (pos : ℕ)
  /-- `return -1` -/
  | full
  | undefined
  | diverges
deriving DecidableEq, Repr

/-- the loop of `find_available_position`, at slot `i`; a loop that passes every slot twice never ends -/
def probeLoop (κ : Keying K) (t : HashTable K V) (key : K) (index : ℕ) : ℕ → ℕ → Probe
  | 0, _ => .diverges
  | fuel + 1, i =>
    if t.alloc ≤ i then .undefined
    else match t.slots i with
      | none => .at i
      | some (k, _) =>
        if κ.eq k key then .at i
        else if i + 1 = t.capacity then probeLoop κ t key index fuel 0
        else if i + 1 = index then .full
        else probeLoop κ t key index fuel (i + 1)

def findAvailablePosition (κ : Keying K) (t : HashTable K V) (key : K) : Probe :=
  if t.capacity = 0 then .undefined
  else probeLoop κ t key (κ.hash key % t.capacity) (2 * t.capacity) (κ.hash key % t.capacity)

/-- `load_factor >= 0.75` in exact arithmetic; 0/0 is not a number and compares false -/
def needsResize (t : HashTable K V) : Bool := 0 < t.size ∧ 3 * t.capacity ≤ 4 * t.size

/-- construct `key` and `value` in slot `pos` -/
def store (t : HashTable K V) (pos : ℕ) (key : K) (value : V) : HashTable K V :=
  { t with size := t.size + 1, slots := Function.update t.slots pos (some (key, value)) }

/-- `insert` after its `maybe_resize`: the new table and the iterator's position (`capacity`: `end()`) -/
def emplace (κ : Keying K) (t : HashTable K V) (key : K) (value : V) : Option (HashTable K V × ℕ) :=
  match findAvailablePosition κ t key with
  | .at pos =>
    if pos < t.capacity then
      match t.slots pos with
      | none => some (store t pos key value, pos)
      | some _ => some (t, t.capacity)
    else none
  | _ => none

/-- one turn of the loop of `resize`: move old slot `i` into the new arrays -/
def moveSlot (ins : HashTable K V → K → V → Option (HashTable K V × ℕ)) (t acc : HashTable K V) (i : ℕ) :
    Option (HashTable K V) :=
  match t.slots i with
  | none => some acc
  | some (k, v) => (ins acc k v).map Prod.fst

/-- `resize`, given the `insert` it calls -/
def resize (ins : HashTable K V → K → V → Option (HashTable K V × ℕ)) (t : HashTable K V) : Option (HashTable K V) :=
  (List.range t.capacity).foldlM (moveSlot ins t) (fresh (findPrime (t.capacity * 2)))

/-- `insert`, with at most `depth` nested calls -/
def insertDepth (κ : Keying K) : ℕ → HashTable K V → K → V → Option (HashTable K V × ℕ)
  | 0, _, _, _ => none
  | depth + 1, t, key, value =>
    (if t.needsResize then resize (insertDepth κ depth) t else some t).bind fun t => emplace κ t key value

/-- the three overloads of `insert` differ in copying or moving only; `insertDepth_stable`: depth 2 is the whole
recursion -/
def insert (κ : Keying K) (t : HashTable K V) (key : K) (value : V) : Option (HashTable K V × ℕ) :=
  insertDepth κ 2 t key value

def getSize (t : HashTable K V) : ℕ := t.size

/-- `lookup`: the iterator's position. A probe that ends in -1 is tested with `pos >= 0`, which a `size_t` always
meets, and then read from: undefined. -/
def lookup (κ : Keying K) (t : HashTable K V) (key : K) : Option ℕ :=
  match findAvailablePosition κ t key with
  | .at pos => if (t.slots pos).isSome then some pos else some t.capacity
  | _ => none

/-- what an iterator at `pos` shows; nothing at `end()` -/
def valueAt (t : HashTable K V) (pos : ℕ) : Option V := if pos = t.capacity then none else (t.slots pos).map Prod.snd

/-- `lookup` read through its iterator: `some none` is `end()` -/
def get (κ : Keying K) (t : HashTable K V) (key : K) : Option (Option V) := (lookup κ t key).map t.valueAt

def remove (κ : Keying K) (t : HashTable K V) (key : K) : Option (HashTable K V) :=
  match findAvailablePosition κ t key with
  | .at pos =>
    match t.slots pos with
    | none => some t
    | some _ => some { t with size := t.size - 1, slots := Function.update t.slots pos none }
  | _ => none

/-! ## The invariant -/

/-- the `n`-th slot of the probe path of a key -/
def path (κ : Keying K) (t : HashTable K V) (key : K) (n : ℕ) : ℕ := (κ.hash key % t.capacity + n) % t.capacity

/-- number of occupied slots below `n` -/
def occupied (t : HashTable K V) (n : ℕ) : ℕ := (List.range n).countP fun i => (t.slots i).isSome

structure WF (κ : Keying K) (t : HashTable K V) : Prop where
  alloc_eq : t.alloc = t.capacity
  cap_pos : 53 ≤ t.capacity
  outside : ∀ i, t.capacity ≤ i → t.slots i = none
  size_eq : t.size = t.occupied t.capacity
  load : 4 * t.size < 3 * t.capacity + 4
  /-- no free slot between a key's home slot and its slot -/
  probe : ∀ i k v, t.slots i = some (k, v) →
    ∃ n < t.capacity, i = path κ t k n ∧ ∀ m < n, (t.slots (path κ t k m)).isSome
  /-- no key is stored twice -/
  unique : ∀ i j k v k' v', t.slots i = some (k, v) → t.slots j = some (k', v') → κ.eq k k' = true → i = j

/-- the value stored for a key, as a total function -/
def look (κ : Keying K) (t : HashTable K V) (key : K) : Option V := (get κ t key).join

theorem findPrime_ge (n : ℕ) : n ≤ findPrime n ∧ 53 ≤ findPrime n := by
  unfold findPrime
  cases h : primes.find? fun p => n < p with
  | some p =>
    have hlt : n < p := by simpa using List.find?_some h
    have hmem : p ∈ primes := List.mem_of_find?_eq_some h
    have hmin : ∀ q ∈ primes, 53 ≤ q := by decide
    exact ⟨hlt.le, hmin p hmem⟩
  | none =>
    have hlast := List.find?_eq_none.1 h 53 (by decide)
    simp only [decide_eq_true_eq, not_lt] at hlast
    exact ⟨le_rfl, hlast⟩

theorem occupied_succ (t : HashTable K V) (n : ℕ) :
    t.occupied (n + 1) = t.occupied n + if (t.slots n).isSome then 1 else 0 := by
  simp [occupied, List.range_succ, List.countP_append, List.countP_cons]

/-- writing one slot changes the count by that slot alone -/
theorem occupied_update (t : HashTable K V) (s : ℕ) (p : ℕ) (x : Option (K × V)) (n : ℕ) :
    HashTable.occupied { t with size := s, slots := Function.update t.slots p x } n + (if p < n ∧ (t.slots p).isSome then 1 else 0) =
      t.occupied n + (if p < n ∧ x.isSome then 1 else 0) := by
  induction n with
  | zero => simp [occupied]
  | succ n ih =>
    rw [occupied_succ, occupied_succ]
    simp only at ih ⊢
    by_cases hpn : p = n
    · subst hpn
      simp only [lt_irrefl, false_and, ite_false, Nat.add_zero, Function.update_self, Nat.lt_succ_self, true_and]
        at ih ⊢
      omega
    · have hiff : p < n + 1 ↔ p < n := by omega
      simp only [hiff, Function.update_of_ne (Ne.symm hpn)]
      omega

/-- a table that is not full has a free slot -/
theorem exists_free {t : HashTable K V} {n : ℕ} (h : t.occupied n < n) : ∃ i < n, t.slots i = none := by
  by_contra hc
  push Not at hc
  have hall : t.occupied n = (List.range n).length := by
    refine List.countP_eq_length.2 fun i hi => ?_
    exact Option.isSome_iff_ne_none.2 (hc i (List.mem_range.1 hi))
  rw [List.length_range] at hall
  omega

/-! ## Probing -/

/-- the probe for `key` ends at slot `i`: the slot is free or holds the key -/
def Stops (κ : Keying K) (t : HashTable K V) (key : K) (i : ℕ) : Prop :=
  ∀ k v, t.slots i = some (k, v) → κ.eq k key = true

theorem not_stops {κ : Keying K} {t : HashTable K V} {key : K} {i : ℕ} (h : ¬ Stops κ t key i) :
    ∃ k v, t.slots i = some (k, v) ∧ κ.eq k key = false := by
  unfold Stops at h
  push Not at h
  obtain ⟨k, v, h1, h2⟩ := h
  exact ⟨k, v, h1, by simpa using h2⟩

theorem path_lt {κ : Keying K} {t : HashTable K V} (hc : 0 < t.capacity) (key : K) (n : ℕ) :
    path κ t key n < t.capacity := Nat.mod_lt _ hc

theorem path_zero {κ : Keying K} {t : HashTable K V} (key : K) : path κ t key 0 = κ.hash key % t.capacity := by
  simp [path]

/-- the next slot of the path: one up, or 0 at the wrap -/
theorem path_succ {κ : Keying K} {t : HashTable K V} (hc : 0 < t.capacity) (key : K) (n : ℕ) :
    path κ t key (n + 1) = if path κ t key n + 1 = t.capacity then 0 else path κ t key n + 1 := by
  unfold path
  have hlt := Nat.mod_lt (κ.hash key % t.capacity + n) hc
  rw [← Nat.add_assoc, Nat.add_mod_eq_ite]
  by_cases h1 : t.capacity = 1
  · simp [h1, Nat.mod_one]
  · rw [Nat.mod_eq_of_lt (a := 1) (by omega)]
    split_ifs <;> omega

/-- the path runs through the whole table -/
theorem path_surj {κ : Keying K} {t : HashTable K V} (key : K) {i : ℕ} (hi : i < t.capacity) :
    ∃ n < t.capacity, path κ t key n = i := by
  have hc : 0 < t.capacity := by omega
  have hh := Nat.mod_lt (κ.hash key) hc
  by_cases h : κ.hash key % t.capacity ≤ i
  · refine ⟨i - κ.hash key % t.capacity, by omega, ?_⟩
    unfold path
    rw [Nat.add_sub_cancel' h, Nat.mod_eq_of_lt hi]
  · refine ⟨i + t.capacity - κ.hash key % t.capacity, by omega, ?_⟩
    unfold path
    rw [show κ.hash key % t.capacity + (i + t.capacity - κ.hash key % t.capacity) = i + t.capacity by omega,
      Nat.add_mod_right, Nat.mod_eq_of_lt hi]

/-- within one turn the path visits no slot twice -/
theorem path_inj {κ : Keying K} {t : HashTable K V} (key : K) {m n : ℕ} (hm : m < t.capacity) (hn : n < t.capacity)
    (h : path κ t key m = path κ t key n) : m = n := by
  unfold path at h
  have := Nat.ModEq.add_left_cancel' (κ.hash key % t.capacity) (show Nat.ModEq t.capacity _ _ from h)
  rwa [Nat.ModEq, Nat.mod_eq_of_lt hm, Nat.mod_eq_of_lt hn] at this

/-- the loop walks the path from its `m`-th slot to the first one at which it stops -/
theorem probeLoop_eq {κ : Keying K} {t : HashTable K V} {key : K} {n : ℕ} (ha : t.alloc = t.capacity)
    (hn : n < t.capacity) (hs : Stops κ t key (path κ t key n)) (hb : ∀ m < n, ¬ Stops κ t key (path κ t key m))
    (fuel m : ℕ) (hm : m ≤ n) (hf : n - m < fuel) :
    probeLoop κ t key (κ.hash key % t.capacity) fuel (path κ t key m) = .at (path κ t key n) := by
  have hc : 0 < t.capacity := by omega
  induction fuel generalizing m with
  | zero => omega
  | succ fuel ih =>
    have hlt := path_lt (κ := κ) (t := t) hc key m
    rw [probeLoop, if_neg (by omega)]
    rcases hm.eq_or_lt with rfl | hmn
    · cases hslot : t.slots (path κ t key m) with
      | none => rfl
      | some e => simp only [hs e.1 e.2 hslot, if_true]
    · obtain ⟨k, v, hslot, hne⟩ := not_stops (hb m hmn)
      have hnext := ih (m + 1) hmn (by omega)
      rw [path_succ hc] at hnext
      simp only [hslot, hne, Bool.false_eq_true, if_false]
      split_ifs at hnext ⊢ with h1 h2
      · exact hnext
      · -- back at the start: the path would have length `capacity`
        exfalso
        have hback : path κ t key (m + 1) = path κ t key 0 := by rw [path_succ hc, if_neg h1, h2, path_zero]
        by_cases h3 : m + 1 < t.capacity
        · exact absurd (path_inj key h3 hc hback) (by omega)
        · omega
      · exact hnext

/-- **Probe specification.** With a free slot, the probe ends at the first slot of the path at which it stops; in
particular it ends, at a position below `capacity`. -/
theorem find_spec {κ : Keying K} {t : HashTable K V} (ha : t.alloc = t.capacity)
    (hfree : ∃ i < t.capacity, t.slots i = none) (key : K) :
    ∃ n < t.capacity, findAvailablePosition κ t key = .at (path κ t key n) ∧ Stops κ t key (path κ t key n) ∧
      ∀ m < n, ¬ Stops κ t key (path κ t key m) := by
  classical
  obtain ⟨i, hi, hnone⟩ := hfree
  obtain ⟨n₀, hn₀, rfl⟩ := path_surj (κ := κ) key hi
  have hex : ∃ n, Stops κ t key (path κ t key n) := ⟨n₀, fun k v h => by rw [hnone] at h; cases h⟩
  have hle : Nat.find hex ≤ n₀ := Nat.find_min' hex fun k v h => by rw [hnone] at h; cases h
  have hc : t.capacity ≠ 0 := by omega
  refine ⟨Nat.find hex, by omega, ?_, Nat.find_spec hex, fun m hm => Nat.find_min hex hm⟩
  rw [findAvailablePosition, if_neg hc, ← path_zero (κ := κ) (t := t) key]
  rw [path_zero]
  have := probeLoop_eq ha (by omega) (Nat.find_spec hex) (fun m hm => Nat.find_min hex hm) (2 * t.capacity) 0
    (Nat.zero_le _) (by omega)
  rwa [path_zero] at this

/-! ## Operations on well-formed tables -/

section WellFormed

variable {κ : Keying K} {t : HashTable K V}

theorem WF.exists_free (h : WF κ t) : ∃ i < t.capacity, t.slots i = none := by
  apply HashTable.exists_free
  have h1 := h.load
  have h2 := h.cap_pos
  rw [← h.size_eq]
  omega

theorem WF.lt_cap (h : WF κ t) {i : ℕ} {e : K × V} (hi : t.slots i = some e) : i < t.capacity := by
  by_contra hc
  rw [h.outside i (not_lt.1 hc)] at hi
  cases hi

theorem path_congr (hκ : κ.Lawful) {a b : K} (h : κ.eq a b = true) (n : ℕ) : path κ t a n = path κ t b n := by
  simp only [path, hκ.hash_eq h]

/-- **What a probe finds** in a well-formed table: the slot of the key, or a free slot where the key belongs when the
key is nowhere in the table. -/
theorem find_cases (hκ : κ.Lawful) (h : WF κ t) (key : K) :
    (∃ p k v, findAvailablePosition κ t key = .at p ∧ p < t.capacity ∧ t.slots p = some (k, v) ∧
      κ.eq k key = true) ∨
    (∃ n < t.capacity, findAvailablePosition κ t key = .at (path κ t key n) ∧ path κ t key n < t.capacity ∧
      t.slots (path κ t key n) = none ∧ (∀ m < n, (t.slots (path κ t key m)).isSome) ∧
      ∀ i k v, t.slots i = some (k, v) → κ.eq k key = false) := by
  obtain ⟨n, hn, hfind, hs, hb⟩ := find_spec h.alloc_eq h.exists_free key
  have hc : 0 < t.capacity := by omega
  have hlt := path_lt (κ := κ) hc key n
  cases hslot : t.slots (path κ t key n) with
  | some e => exact Or.inl ⟨_, e.1, e.2, hfind, hlt, hslot, hs e.1 e.2 hslot⟩
  | none =>
    refine Or.inr ⟨n, hn, hfind, hlt, hslot, fun m hm => ?_, fun i k v hi => ?_⟩
    · obtain ⟨k, v, hm', -⟩ := not_stops (hb m hm)
      rw [hm']
      rfl
    · -- a stored copy of the key would lie on the same path, behind occupied slots only
      by_contra heq
      have heq : κ.eq k key = true := by simpa using heq
      obtain ⟨n', hn', rfl, hocc⟩ := h.probe i k v hi
      rw [path_congr hκ heq] at hi
      have hstop : Stops κ t key (path κ t key n') := fun k' v' hk' => by
        rw [hi] at hk'
        cases hk'
        exact heq
      have hle : n ≤ n' := by
        by_contra hlt'
        exact hb n' (by omega) hstop
      rcases hle.eq_or_lt with rfl | hlt'
      · rw [hslot] at hi
        cases hi
      · have := hocc n hlt'
        rw [path_congr hκ heq, hslot] at this
        cases this

/-- some slot stores the value `v` for the key -/
def Stores (κ : Keying K) (t : HashTable K V) (key : K) (v : V) : Prop :=
  ∃ i k, t.slots i = some (k, v) ∧ κ.eq k key = true

/-- `lookup` is defined on a well-formed table and shows exactly what is stored -/
theorem get_spec (hκ : κ.Lawful) (h : WF κ t) (key : K) :
    get κ t key = some (look κ t key) ∧ ∀ v, look κ t key = some v ↔ Stores κ t key v := by
  rcases find_cases hκ h key with ⟨p, k, v, hfind, hlt, hslot, heq⟩ | ⟨n, -, hfind, hlt, hslot, -, hno⟩
  · have hget : get κ t key = some (some v) := by
      simp [get, lookup, hfind, hslot, valueAt, Nat.ne_of_lt hlt]
    have hlook : look κ t key = some v := by rw [look, hget]; rfl
    refine ⟨by rw [hget, hlook], fun w => ?_⟩
    rw [hlook]
    constructor
    · intro hw
      cases hw
      exact ⟨p, k, hslot, heq⟩
    · rintro ⟨i, k', hi, heq'⟩
      have hip : i = p := h.unique i p k' w k v hi hslot (hκ.trans heq' (hκ.symm heq))
      rw [hip, hslot] at hi
      cases hi
      rfl
  · have hget : get κ t key = some none := by simp [get, lookup, hfind, hslot, valueAt]
    have hlook : look κ t key = none := by rw [look, hget]; rfl
    refine ⟨by rw [hget, hlook], fun w => ?_⟩
    rw [hlook]
    constructor
    · intro hw
      cases hw
    · rintro ⟨i, k', hi, heq'⟩
      rw [hno i k' w hi] at heq'
      cases heq'

theorem get_eq (hκ : κ.Lawful) (h : WF κ t) (key : K) : get κ t key = some (look κ t key) := (get_spec hκ h key).1

theorem look_eq_some (hκ : κ.Lawful) (h : WF κ t) (key : K) (v : V) :
    look κ t key = some v ↔ Stores κ t key v := (get_spec hκ h key).2 v

theorem look_eq_none (hκ : κ.Lawful) (h : WF κ t) (key : K) :
    look κ t key = none ↔ ∀ i k v, t.slots i = some (k, v) → κ.eq k key = false := by
  rw [Option.eq_none_iff_forall_ne_some]
  constructor
  · intro hn i k v hi
    by_contra heq
    exact hn v ((look_eq_some hκ h key v).2 ⟨i, k, hi, by simpa using heq⟩)
  · rintro hn v hv
    obtain ⟨i, k, hi, heq⟩ := (look_eq_some hκ h key v).1 hv
    rw [hn i k v hi] at heq
    cases heq

/-- lookups agree on equal keys -/
theorem look_congr (hκ : κ.Lawful) (h : WF κ t) {a b : K} (heq : κ.eq a b = true) : look κ t a = look κ t b := by
  ext v
  rw [look_eq_some hκ h, look_eq_some hκ h]
  constructor
  · rintro ⟨i, k, hi, hk⟩
    exact ⟨i, k, hi, hκ.trans hk heq⟩
  · rintro ⟨i, k, hi, hk⟩
    exact ⟨i, k, hi, hκ.trans hk (hκ.symm heq)⟩

theorem fresh_wf {c : ℕ} (hc : 53 ≤ c) : WF κ (fresh c : HashTable K V) where
  alloc_eq := rfl
  cap_pos := hc
  outside _ _ := rfl
  size_eq := by simp [fresh, occupied]
  load := by simp [fresh]
  probe _ _ _ h := by cases h
  unique _ _ _ _ _ _ h := by cases h

theorem look_fresh (hκ : κ.Lawful) {c : ℕ} (hc : 53 ≤ c) (key : K) :
    look κ (fresh c : HashTable K V) key = none :=
  (look_eq_none hκ (fresh_wf hc) key).2 fun _ _ _ h => by cases h

/-- `insert` of a key that is present, after `maybe_resize`: nothing changes and the iterator is `end()` -/
theorem emplace_present (hκ : κ.Lawful) (h : WF κ t) {key : K} (hk : look κ t key ≠ none) (value : V) :
    emplace κ t key value = some (t, t.capacity) := by
  rcases find_cases hκ h key with ⟨p, k, v, hfind, hlt, hslot, -⟩ | ⟨n, -, -, -, -, -, hno⟩
  · simp [emplace, hfind, hlt, hslot]
  · exact absurd ((look_eq_none hκ h key).2 hno) hk

/-- the slots after a store -/
theorem store_slot {p : ℕ} {key : K} {value : V} {i : ℕ} {e : K × V} (hi : (store t p key value).slots i = some e) :
    (i = p ∧ e = (key, value)) ∨ (i ≠ p ∧ t.slots i = some e) := by
  simp only [store] at hi
  by_cases hip : i = p
  · rw [hip, Function.update_self] at hi
    exact Or.inl ⟨hip, by cases hi; rfl⟩
  · rw [Function.update_of_ne hip] at hi
    exact Or.inr ⟨hip, hi⟩

theorem store_self (t : HashTable K V) (p : ℕ) (key : K) (value : V) :
    (store t p key value).slots p = some (key, value) := by simp [store]

theorem store_ne {p i : ℕ} (hip : i ≠ p) (key : K) (value : V) : (store t p key value).slots i = t.slots i := by
  simp [store, Function.update_of_ne hip]

/-- an occupied slot stays occupied -/
theorem store_isSome {p i : ℕ} (key : K) (value : V) (hi : (t.slots i).isSome) :
    ((store t p key value).slots i).isSome := by
  by_cases hip : i = p
  · rw [hip, store_self]; rfl
  · rw [store_ne hip]; exact hi

/-- storing an absent key in the free slot its probe ends at keeps the table well formed -/
theorem store_wf (hκ : κ.Lawful) (h : WF κ t) {key : K} {n : ℕ} (hn : n < t.capacity)
    (hslot : t.slots (path κ t key n) = none) (hocc : ∀ m < n, (t.slots (path κ t key m)).isSome)
    (hno : ∀ i k v, t.slots i = some (k, v) → κ.eq k key = false) (hroom : 4 * t.size < 3 * t.capacity) (value : V) :
    WF κ (store t (path κ t key n) key value) := by
  have hlt := path_lt (κ := κ) (show 0 < t.capacity by omega) key n
  refine ⟨h.alloc_eq, h.cap_pos, fun i hi => ?_, ?_, ?_, fun i k v hi => ?_, fun i j k v k' v' hi hj heq => ?_⟩
  · have hi' : t.capacity ≤ i := hi
    rw [store_ne (by omega)]
    exact h.outside i hi
  · have hcount := occupied_update t (t.size + 1) (path κ t key n) (some (key, value)) t.capacity
    simp only [hslot, Option.isSome_none, Bool.false_eq_true, and_false, if_false, hlt, Option.isSome_some,
      and_self, if_true] at hcount
    show t.size + 1 = (store t (path κ t key n) key value).occupied t.capacity
    rw [h.size_eq]
    exact hcount.symm
  · show 4 * (t.size + 1) < 3 * t.capacity + 4
    omega
  · rcases store_slot hi with ⟨rfl, he⟩ | ⟨-, hi'⟩
    · cases he
      exact ⟨n, hn, rfl, fun m hm => store_isSome _ _ (hocc m hm)⟩
    · obtain ⟨m, hm, hpm, hmo⟩ := h.probe i k v hi'
      exact ⟨m, hm, hpm, fun q hq => store_isSome _ _ (hmo q hq)⟩
  · rcases store_slot hi with ⟨rfl, he⟩ | ⟨-, hi'⟩ <;> rcases store_slot hj with ⟨rfl, he'⟩ | ⟨-, hj'⟩
    · rfl
    · cases he
      have := hno j k' v' hj'
      rw [hκ.symm heq] at this
      cases this
    · cases he'
      have := hno i k v hi'
      rw [heq] at this
      cases this
    · exact h.unique i j k v k' v' hi' hj' heq

/-- what is stored after storing an absent key in a free slot -/
theorem stores_store (hκ : κ.Lawful) {p : ℕ} {key : K} (hslot : t.slots p = none)
    (hno : ∀ i k v, t.slots i = some (k, v) → κ.eq k key = false) (value : V) (k : K) (v : V) :
    Stores κ (store t p key value) k v ↔ if κ.eq key k then v = value else Stores κ t k v := by
  split_ifs with heq
  · constructor
    · rintro ⟨i, k', hi, hk'⟩
      rcases store_slot hi with ⟨-, he⟩ | ⟨-, hi'⟩
      · cases he; rfl
      · have := hno i k' v hi'
        rw [hκ.trans hk' (hκ.symm heq)] at this
        cases this
    · rintro rfl
      exact ⟨p, key, store_self _ _ _ _, heq⟩
  · constructor
    · rintro ⟨i, k', hi, hk'⟩
      rcases store_slot hi with ⟨-, he⟩ | ⟨-, hi'⟩
      · cases he; exact absurd hk' heq
      · exact ⟨i, k', hi', hk'⟩
    · rintro ⟨i, k', hi, hk'⟩
      have hip : i ≠ p := fun hc => by rw [hc, hslot] at hi; cases hi
      exact ⟨i, k', by rw [store_ne hip]; exact hi, hk'⟩

/-- `insert` of a key that is absent, after `maybe_resize` left room: the key is stored, at the returned position, and
no other lookup changes -/
theorem emplace_absent (hκ : κ.Lawful) (h : WF κ t) {key : K} (hk : look κ t key = none)
    (hroom : 4 * t.size < 3 * t.capacity) (value : V) :
    ∃ p < t.capacity, t.slots p = none ∧ emplace κ t key value = some (store t p key value, p) ∧
      WF κ (store t p key value) ∧ ∀ k, look κ (store t p key value) k = if κ.eq key k then some value else look κ t k := by
  rcases find_cases hκ h key with ⟨p, k, v, -, -, hslot, heq⟩ | ⟨n, hn, hfind, hlt, hslot, hocc, hno⟩
  · have := (look_eq_none hκ h key).1 hk p k v hslot
    rw [heq] at this
    cases this
  · have hwf := store_wf hκ h hn hslot hocc hno hroom value
    refine ⟨_, hlt, hslot, by simp [emplace, hfind, hlt, hslot], hwf, fun k => ?_⟩
    ext v
    rw [look_eq_some hκ hwf, stores_store hκ hslot hno]
    split_ifs with heq
    · simp [eq_comm]
    · rw [look_eq_some hκ h]

/-! ## Growing -/

/-- the invariant of the loop of `resize`: `acc` holds the old slots below `i` -/
structure Moved (κ : Keying K) (t : HashTable K V) (i : ℕ) (acc : HashTable K V) : Prop where
  wf : WF κ acc
  capacity : acc.capacity = findPrime (t.capacity * 2)
  size : acc.size = t.occupied i
  stores : ∀ k v, look κ acc k = some v ↔ ∃ j < i, ∃ k', t.slots j = some (k', v) ∧ κ.eq k' k = true

theorem moved_zero (hκ : κ.Lawful) (t : HashTable K V) : Moved κ t 0 (fresh (findPrime (t.capacity * 2))) where
  wf := fresh_wf (findPrime_ge _).2
  capacity := rfl
  size := by simp [fresh, occupied]
  stores k v := by rw [look_fresh hκ (findPrime_ge _).2]; simp

/-- below the load bound, `insert` is its second half -/
theorem insertDepth_room (hroom : 4 * t.size < 3 * t.capacity) (d : ℕ) (key : K) (value : V) :
    insertDepth κ (d + 1) t key value = emplace κ t key value := by
  have : t.needsResize = false := by simp [needsResize]; omega
  simp [insertDepth, this]

/-- one turn of the loop: the inner `insert` has room, so it never resizes, and the key is new to `acc` -/
theorem moved_step (hκ : κ.Lawful) (h : WF κ t) {i : ℕ} (hi : i < t.capacity) {acc : HashTable K V}
    (hm : Moved κ t i acc) :
    ∃ acc', (∀ d, moveSlot (insertDepth κ (d + 1)) t acc i = some acc') ∧ Moved κ t (i + 1) acc' := by
  cases hslot : t.slots i with
  | none =>
    refine ⟨acc, fun d => by simp [moveSlot, hslot], hm.wf, hm.capacity, by rw [occupied_succ, hm.size, hslot]; simp,
      fun k v => ?_⟩
    rw [hm.stores]
    constructor
    · rintro ⟨j, hj, hrest⟩
      exact ⟨j, by omega, hrest⟩
    · rintro ⟨j, hj, k', hk', heq⟩
      have : j ≠ i := fun hc => by rw [hc, hslot] at hk'; cases hk'
      exact ⟨j, by omega, k', hk', heq⟩
  | some e =>
    obtain ⟨k, v⟩ := e
    have hnew : look κ acc k = none := by
      rw [Option.eq_none_iff_forall_ne_some]
      intro w hw
      obtain ⟨j, hj, k', hk', heq⟩ := (hm.stores k w).1 hw
      exact absurd (h.unique j i k' w k v hk' hslot heq) (by omega)
    have hroom : 4 * acc.size < 3 * acc.capacity := by
      have h1 := h.load
      have h2 := (findPrime_ge (t.capacity * 2)).1
      have h3 := h.cap_pos
      have h4 : t.occupied i ≤ t.occupied t.capacity := by
        unfold occupied
        exact ((List.range_sublist.2 hi.le).countP_le)
      rw [hm.size, hm.capacity]
      rw [h.size_eq] at h1
      omega
    obtain ⟨p, hp, hfree, hem, hwf, hlook⟩ := emplace_absent hκ hm.wf hnew hroom v
    refine ⟨store acc p k v, fun d => by simp [moveSlot, hslot, insertDepth_room hroom, hem], hwf, hm.capacity, ?_,
      fun k' w => ?_⟩
    · rw [occupied_succ, hslot]
      simp [store, hm.size]
    · rw [hlook]
      split_ifs with heq
      · constructor
        · intro hw
          cases hw
          exact ⟨i, by omega, k, hslot, heq⟩
        · rintro ⟨j, -, k'', hj, heq'⟩
          have hji : j = i := h.unique j i k'' w k v hj hslot (hκ.trans heq' (hκ.symm heq))
          rw [hji, hslot] at hj
          cases hj
          rfl
      · rw [hm.stores]
        constructor
        · rintro ⟨j, hj, hrest⟩
          exact ⟨j, by omega, hrest⟩
        · rintro ⟨j, hj, k'', hj', heq'⟩
          have : j ≠ i := fun hc => by
            rw [hc, hslot] at hj'
            cases hj'
            exact heq heq'
          exact ⟨j, by omega, k'', hj', heq'⟩

/-- the loop of `resize` up to slot `n`, whatever depth its inserts are given -/
theorem resize_prefix (hκ : κ.Lawful) (h : WF κ t) {n : ℕ} (hn : n ≤ t.capacity) :
    ∃ acc, (∀ d, (List.range n).foldlM (moveSlot (insertDepth κ (d + 1)) t)
      (fresh (findPrime (t.capacity * 2))) = some acc) ∧ Moved κ t n acc := by
  induction n with
  | zero => exact ⟨_, fun _ => rfl, moved_zero hκ t⟩
  | succ n ih =>
    obtain ⟨acc, hacc, hm⟩ := ih (by omega)
    obtain ⟨acc', hstep, hm'⟩ := moved_step hκ h (by omega) hm
    refine ⟨acc', fun d => ?_, hm'⟩
    rw [List.range_succ, List.foldlM_append, hacc d]
    simp [hstep d]

/-- **Growing keeps the map.** `resize` is defined on a well-formed table, keeps size and lookups and leaves room for
one more key. -/
theorem resize_spec (hκ : κ.Lawful) (h : WF κ t) :
    ∃ t', (∀ d, resize (insertDepth κ (d + 1)) t = some t') ∧ WF κ t' ∧ t'.size = t.size ∧
      4 * t'.size < 3 * t'.capacity ∧ ∀ k, look κ t' k = look κ t k := by
  obtain ⟨t', ht', hm⟩ := resize_prefix hκ h le_rfl
  refine ⟨t', ht', hm.wf, by rw [hm.size, h.size_eq], ?_, fun k => ?_⟩
  · have h1 := h.load
    have h2 := (findPrime_ge (t.capacity * 2)).1
    have h3 := h.cap_pos
    rw [hm.size, hm.capacity, ← h.size_eq]
    omega
  · ext v
    rw [hm.stores, look_eq_some hκ h]
    constructor
    · rintro ⟨j, -, k', hj, heq⟩
      exact ⟨j, k', hj, heq⟩
    · rintro ⟨j, k', hj, heq⟩
      exact ⟨j, h.lt_cap hj, k', hj, heq⟩

/-- after `maybe_resize` there is room, and the map is the same -/
theorem maybeResize_spec (hκ : κ.Lawful) (h : WF κ t) :
    ∃ t', (∀ d, (if t.needsResize then resize (insertDepth κ (d + 1)) t else some t) = some t') ∧ WF κ t' ∧
      t'.size = t.size ∧ 4 * t'.size < 3 * t'.capacity ∧ ∀ k, look κ t' k = look κ t k := by
  cases hr : t.needsResize with
  | true =>
    obtain ⟨t', h1, h2⟩ := resize_spec hκ h
    exact ⟨t', fun d => by rw [if_pos rfl]; exact h1 d, h2⟩
  | false =>
    refine ⟨t, fun d => by simp, h, rfl, ?_, fun _ => rfl⟩
    simp only [needsResize, Bool.decide_and, Bool.and_eq_false_iff, decide_eq_false_iff_not] at hr
    have := h.cap_pos
    omega

/-- **Insert specification.** On a well-formed table `insert` is defined at every depth from 2 on, with one result. A
present key keeps its value and the iterator is `end()`; an absent key is stored at the returned position. -/
theorem insertDepth_spec (hκ : κ.Lawful) (h : WF κ t) (key : K) (value : V) :
    ∃ t' p, (∀ d, insertDepth κ (d + 2) t key value = some (t', p)) ∧ WF κ t' ∧
      (∀ k, look κ t' k = if look κ t key = none ∧ κ.eq key k = true then some value else look κ t k) ∧
      t'.size = t.size + (if look κ t key = none then 1 else 0) ∧
      (look κ t key ≠ none → p = t'.capacity) ∧
      (look κ t key = none → p < t'.capacity ∧ t'.slots p = some (key, value)) := by
  obtain ⟨u, hu, hwf, hsize, hroom, hlook⟩ := maybeResize_spec hκ h
  have hins : ∀ d, insertDepth κ (d + 2) t key value = emplace κ u key value := fun d => by
    rw [insertDepth, hu d, Option.bind_some]
  by_cases hk : look κ t key = none
  · obtain ⟨p, hp, -, hem, hwf', hlook'⟩ := emplace_absent hκ hwf (by rw [hlook]; exact hk) hroom value
    refine ⟨store u p key value, p, fun d => by rw [hins, hem], hwf', fun k => ?_, ?_, fun hn => absurd hk hn,
      fun _ => ⟨hp, store_self _ _ _ _⟩⟩
    · rw [hlook', hlook]
      simp [hk]
    · simp [store, hsize, hk]
  · have hem := emplace_present hκ hwf (by rw [hlook]; exact hk) value
    refine ⟨u, u.capacity, fun d => by rw [hins, hem], hwf, fun k => ?_, ?_, fun _ => rfl, fun hn => absurd hn hk⟩
    · rw [hlook]
      simp [hk]
    · simp [hsize, hk]

/-- the recursion of `insert` is two deep on well-formed tables: a larger bound changes nothing -/
theorem insertDepth_stable (hκ : κ.Lawful) (h : WF κ t) (key : K) (value : V) (d : ℕ) :
    insertDepth κ (d + 2) t key value = insert κ t key value := by
  obtain ⟨t', p, hd, -⟩ := insertDepth_spec hκ h key value
  rw [insert, hd d, hd 0]

theorem insert_spec (hκ : κ.Lawful) (h : WF κ t) (key : K) (value : V) :
    ∃ t' p, insert κ t key value = some (t', p) ∧ WF κ t' ∧
      (∀ k, look κ t' k = if look κ t key = none ∧ κ.eq key k = true then some value else look κ t k) ∧
      t'.size = t.size + (if look κ t key = none then 1 else 0) ∧
      (look κ t key ≠ none → p = t'.capacity) ∧
      (look κ t key = none → p < t'.capacity ∧ t'.slots p = some (key, value)) := by
  obtain ⟨t', p, hd, hrest⟩ := insertDepth_spec hκ h key value
  exact ⟨t', p, hd 0, hrest⟩

end WellFormed

end HashTable

end K23Search
