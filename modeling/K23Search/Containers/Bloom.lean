/-
`qs::bloom` (include/qs/bloom.h, lib/bloom.cpp): a Bloom filter whose `i`-th probe of an element is
`hash_i(el, i) % (size * 8)`.

The first constructor does not clear the bit field, and it computes the number of probes from the size and the expected
number of elements. A remainder by 0, an access outside the bit field and the overflow of `i * i` in `hash_i` are
`none`; a `merge` of another size throws.

- `probe`: the bit of a probe;
- `Origin`: a filter of the first constructor, with the memory that it got and the elements added to it.

Results:
- `add_isSome`, `add_spec`, `lookup_true`, `lookup_false`: `add` and `lookup` by the bits of the probes;
- `merge_union_iff`: when a merge is the union of two filters;
- `reports_added_iff`: when a filter reports only what was added;
- `arithmetic_defined_iff`: for which parameters everything that `add` and `lookup` compute is defined.
-/
import K23Search.Lib.BitField
import K23Search.Lib.Outcome
import K23Search.Lib.Run
import K23Search.Text.Hash

namespace K23Search

open K23Search.Lib K23Search.Text

/-! ## Model -/

structure Bloom where
  bitField : List UInt8
  size : ℕ
  hashFunctions : ℕ
  valid : bitField.length = size ∧ size < 2 ^ 64
deriving DecidableEq

namespace Bloom

/-- the `double` nearest to a natural number, ties to even -/
def toDouble (x : ℕ) : ℕ :=
  let ulp := 2 ^ (Nat.log2 x - 52)
  let half := 2 * (x % ulp)
  if ulp < half ∨ (ulp = half ∧ x / ulp % 2 = 1) then (x / ulp + 1) * ulp else x / ulp * ulp

/-- `log(2)` is the double `6243314768165359 / 2 ^ 53` -/
def calculateK (size numberOfElements : ℕ) : ℕ :=
  let numberOfElements := if numberOfElements = 0 then 1000 else numberOfElements
  let div := toDouble (size * 8 % 2 ^ 64 / numberOfElements)
  let k := (toDouble (div * 6243314768165359) + 2 ^ 52) / 2 ^ 53
  if k = 0 then 1 else k

/-- `bloom(size, num_of_elements)`; `fresh`: the bytes that `new` returns -/
def make (size numOfElements : ℕ) (fresh : List UInt8) (valid : fresh.length = size ∧ size < 2 ^ 64) : Bloom :=
  ⟨fresh, size, calculateK size numOfElements, valid⟩

/-- a `size_t` passed as an `int` -/
def toInt (i : ℕ) : ℤ := Int.bmod i (2 ^ 32)

/-- `pos % (bf_size * 8)` -/
def constrain (bfSize pos : ℕ) : Option ℕ :=
  if bfSize * 8 % 2 ^ 64 = 0 then none else some (pos % (bfSize * 8 % 2 ^ 64))

/-- `bf[pos / 8] |= bit` -/
def setAt (b : Bloom) (pos : ℕ) : Bloom :=
  { b with
    bitField := setBit b.bitField pos
    valid := ⟨(length_setBit _ _).trans b.valid.1, b.valid.2⟩ }

def bfSetBit (b : Bloom) (pos : UInt64) : Option Bloom :=
  (constrain b.size pos.toNat).bind fun pos => if pos / 8 < b.bitField.length then some (b.setAt pos) else none

def bfGetBit (b : Bloom) (pos : UInt64) : Option UInt8 :=
  (constrain b.size pos.toNat).bind fun pos => b.bitField[pos / 8]?.map (· &&& bitMask pos)

/-- the loop of `add` from `i` on; `n` rounds are left -/
def addFrom (el : CString) : ℕ → ℕ → Bloom → Option Bloom
  | 0, _, b => some b
  | n + 1, i, b => (hashI el.mem (toInt i)).bind fun pos => (b.bfSetBit pos).bind (addFrom el n (i + 1))

def add (b : Bloom) (el : CString) : Option Bloom := addFrom el b.hashFunctions 1 b

/-- the loop of `lookup` from `i` on; `n` rounds are left -/
def lookupFrom (b : Bloom) (el : CString) : ℕ → ℕ → Option Bool
  | 0, _ => some true
  | n + 1, i => (hashI el.mem (toInt i)).bind fun pos => (b.bfGetBit pos).bind fun bit =>
    if bit = 0 then some false else lookupFrom b el n (i + 1)

def lookup (b : Bloom) (el : CString) : Option Bool := b.lookupFrom el b.hashFunctions 1

theorem length_merge {xs ys : List UInt8} (h : xs.length ≤ ys.length) :
    (List.zipWith (· ||| ·) xs ys).length = xs.length := by
  rw [List.length_zipWith, Nat.min_eq_left h]

def merge (b : Bloom) (size : ℕ) (bytes : List UInt8) : Outcome Bloom :=
  if b.size ≠ size then .throws b
  else if h : b.bitField.length ≤ bytes.length then
    .returns { b with
      bitField := List.zipWith (· ||| ·) b.bitField bytes
      valid := ⟨(length_merge h).trans b.valid.1, b.valid.2⟩ }
  else .undefined

/-- a filter of the first constructor, after `add` calls -/
structure Origin where
  size : ℕ
  numOfElements : ℕ
  fresh : List UInt8
  valid : fresh.length = size ∧ size < 2 ^ 64
  added : List CString

namespace Origin

def hashFunctions (o : Origin) : ℕ := calculateK o.size o.numOfElements

def build (o : Origin) : Option Bloom := run add (make o.size o.numOfElements o.fresh o.valid) o.added

end Origin

/-! ## Probes -/

/-- the bit of the `i`-th probe -/
def probe (size : ℕ) (el : CString) (i : ℕ) : Option ℕ :=
  (hashI el.mem (toInt i)).bind fun pos => constrain size pos.toNat

/-- probes `1` to `k` are defined: no overflow of `i * i`, and a modulus -/
def Probeable (size k : ℕ) : Prop := k = 0 ∨ (k ≤ 46340 ∧ size * 8 % 2 ^ 64 ≠ 0)

instance (size k : ℕ) : Decidable (Probeable size k) := inferInstanceAs (Decidable (_ ∨ _))

/-- `p` is the bit of a probe of `el` -/
def Probed (size k : ℕ) (el : CString) (p : ℕ) : Prop := ∃ i, 1 ≤ i ∧ i ≤ k ∧ probe size el i = some p

def has (b : Bloom) (p : ℕ) : Bool := bitAt b.bitField p

theorem constrain_isSome (bfSize pos : ℕ) : (constrain bfSize pos).isSome = true ↔ bfSize * 8 % 2 ^ 64 ≠ 0 := by
  rw [constrain]
  split
  · next h => exact iff_of_false Bool.false_ne_true (not_not_intro h)
  · next h => exact iff_of_true rfl h

/-- the byte of a bit is in the bit field -/
theorem constrain_lt {bfSize pos p : ℕ} (h : constrain bfSize pos = some p) : p / 8 < bfSize := by
  rw [constrain] at h
  split at h
  · exact absurd h nofun
  · next hm =>
    have hlt : p < bfSize * 8 % 2 ^ 64 := Option.some.inj h ▸ Nat.mod_lt _ (Nat.pos_of_ne_zero hm)
    have hle : bfSize * 8 % 2 ^ 64 ≤ bfSize * 8 := Nat.mod_le _ _
    exact Nat.div_lt_of_lt_mul (by omega)

theorem probe_lt {size i p : ℕ} {el : CString} (h : probe size el i = some p) : p / 8 < size := by
  obtain ⟨pos, -, h⟩ := Option.bind_eq_some_iff.1 h
  exact constrain_lt h

theorem probe_isSome (size : ℕ) (el : CString) (i : ℕ) :
    (probe size el i).isSome = true ↔ toInt i * toInt i < 2 ^ 31 ∧ size * 8 % 2 ^ 64 ≠ 0 := by
  rw [← hashI_isSome el, probe]
  cases hashI el.mem (toInt i) with
  | none => exact iff_of_false Bool.false_ne_true fun h => absurd h.1 Bool.false_ne_true
  | some pos => rw [Option.bind_some, constrain_isSome, Option.isSome_some, eq_self, true_and]

theorem toInt_eq {i : ℕ} (h : i < 2 ^ 31) : toInt i = i :=
  Int.bmod_eq_of_le_mul_two (by omega) (by omega)

theorem toInt_sq_lt {i : ℕ} (h : i ≤ 46340) : toInt i * toInt i < 2 ^ 31 := by
  rw [toInt_eq (by omega)]
  have hsq : i * i ≤ 46340 * 46340 := Nat.mul_le_mul h h
  omega

/-- the probes that are defined -/
theorem probes_isSome (size : ℕ) (el : CString) (k : ℕ) :
    (∀ i, 1 ≤ i → i ≤ k → (probe size el i).isSome = true) ↔ Probeable size k := by
  constructor
  · intro h
    by_cases hk : k = 0
    · exact Or.inl hk
    · refine Or.inr ⟨?_, ((probe_isSome size el 1).1 (h 1 (Nat.le_refl _) (by omega))).2⟩
      by_contra hlt
      have hover := ((probe_isSome size el 46341).1 (h 46341 (by omega) (by omega))).1
      rw [toInt_eq (by omega)] at hover
      omega
  · intro h i hi hik
    rcases h with hk | ⟨hk, hm⟩
    · omega
    · exact (probe_isSome size el i).2 ⟨toInt_sq_lt (by omega), hm⟩

/-! ## `add` and `lookup` -/

theorem has_setAt {b : Bloom} {p : ℕ} (hp : p / 8 < b.size) (q : ℕ) :
    (b.setAt p).has q = true ↔ q = p ∨ b.has q = true := by
  rw [has, has, setAt, bitAt_setBit (b.valid.1 ▸ hp), Bool.or_eq_true, decide_eq_true_eq]

theorem addFrom_succ (b : Bloom) (el : CString) (n i : ℕ) :
    addFrom el (n + 1) i b = (probe b.size el i).bind fun p => addFrom el n (i + 1) (b.setAt p) := by
  rw [addFrom, probe, Option.bind_assoc]
  congr 1
  funext pos
  rw [bfSetBit, Option.bind_assoc]
  apply Option.bind_congr
  intro p hp
  rw [b.valid.1, if_pos (constrain_lt hp), Option.bind_some]

theorem lookupFrom_succ (b : Bloom) (el : CString) (n i : ℕ) :
    b.lookupFrom el (n + 1) i =
      (probe b.size el i).bind fun p => if b.has p then b.lookupFrom el n (i + 1) else some false := by
  rw [lookupFrom, probe, Option.bind_assoc]
  congr 1
  funext pos
  rw [bfGetBit, Option.bind_assoc]
  apply Option.bind_congr
  intro p hp
  have hlt : p / 8 < b.bitField.length := b.valid.1 ▸ constrain_lt hp
  have hmask := and_mask_eq_zero b.bitField p
  rw [List.getD_eq_getElem _ _ hlt] at hmask
  rw [List.getElem?_eq_getElem hlt, Option.map_some, Option.bind_some, has]
  by_cases hbit : bitAt b.bitField p = true
  · rw [if_pos hbit, if_neg (by rw [hmask, hbit]; exact Bool.noConfusion)]
  · rw [if_neg hbit, if_pos (hmask.2 (Bool.eq_false_of_not_eq_true hbit))]

/-- the rounds from `i` on are round `i` and those behind it -/
theorem forall_rounds (P : ℕ → Prop) (i n : ℕ) :
    (∀ j, i ≤ j → j < i + (n + 1) → P j) ↔ P i ∧ ∀ j, i + 1 ≤ j → j < i + 1 + n → P j := by
  constructor
  · intro h
    exact ⟨h i (Nat.le_refl _) (by omega), fun j hij hj => h j (by omega) (by omega)⟩
  · intro ⟨hi, h⟩ j hij hj
    rcases Nat.eq_or_lt_of_le hij with rfl | hlt
    · exact hi
    · exact h j hlt (by omega)

theorem exists_rounds (P : ℕ → Prop) (i n : ℕ) :
    (∃ j, i ≤ j ∧ j < i + (n + 1) ∧ P j) ↔ P i ∨ ∃ j, i + 1 ≤ j ∧ j < i + 1 + n ∧ P j := by
  have h := forall_rounds (fun j => ¬P j) i n
  constructor
  · intro ⟨j, hij, hj, hP⟩
    by_contra hno
    rw [not_or, not_exists] at hno
    exact h.2 ⟨hno.1, fun l hil hl hPl => hno.2 l ⟨hil, hl, hPl⟩⟩ j hij hj hP
  · rintro (hP | ⟨j, hij, hj, hP⟩)
    · exact ⟨i, Nat.le_refl _, by omega, hP⟩
    · exact ⟨j, by omega, by omega, hP⟩

/-- the rounds from `i` on are defined when their probes are -/
theorem addFrom_isSome (el : CString) (n i : ℕ) (b : Bloom) :
    (addFrom el n i b).isSome = true ↔ ∀ j, i ≤ j → j < i + n → (probe b.size el j).isSome = true := by
  induction n generalizing i b with
  | zero => exact iff_of_true rfl fun j hij hj => by omega
  | succ n ih =>
    rw [forall_rounds, addFrom_succ]
    cases probe b.size el i with
    | none => exact iff_of_false Bool.false_ne_true fun h => Bool.false_ne_true h.1
    | some p => exact (ih (i + 1) (b.setAt p)).trans (and_iff_right rfl).symm

/-- the rounds from `i` on set the bits of their probes -/
theorem addFrom_spec {el : CString} {n i : ℕ} {b b' : Bloom} (h : addFrom el n i b = some b') :
    b'.size = b.size ∧ b'.hashFunctions = b.hashFunctions ∧
      ∀ q, b'.has q = true ↔ b.has q = true ∨ ∃ j, i ≤ j ∧ j < i + n ∧ probe b.size el j = some q := by
  induction n generalizing i b with
  | zero =>
    obtain rfl := Option.some.inj h
    refine ⟨rfl, rfl, fun q => (or_iff_left ?_).symm⟩
    intro ⟨j, hij, hj, _⟩
    omega
  | succ n ih =>
    rw [addFrom_succ] at h
    obtain ⟨p, hp, h⟩ := Option.bind_eq_some_iff.1 h
    obtain ⟨hsize, hk, hbits⟩ := ih h
    refine ⟨hsize, hk, fun q => (hbits q).trans ?_⟩
    rw [has_setAt (probe_lt hp), exists_rounds, hp, Option.some.injEq, eq_comm, ← or_assoc, or_comm (a := p = q)]
    rfl

theorem add_isSome (b : Bloom) (el : CString) : (b.add el).isSome = true ↔ Probeable b.size b.hashFunctions := by
  rw [add, addFrom_isSome, ← probes_isSome b.size el]
  exact forall₂_congr fun j _ => by rw [Nat.add_comm, Nat.lt_succ_iff]

theorem add_spec {b b' : Bloom} {el : CString} (h : b.add el = some b') :
    b'.size = b.size ∧ b'.hashFunctions = b.hashFunctions ∧
      ∀ q, b'.has q = true ↔ b.has q = true ∨ Probed b.size b.hashFunctions el q := by
  obtain ⟨hsize, hk, hbits⟩ := addFrom_spec h
  refine ⟨hsize, hk, fun q => (hbits q).trans (or_congr_right (exists_congr fun j => ?_))⟩
  rw [Nat.add_comm, Nat.lt_succ_iff]

/-- the `i`-th probe of `el` finds its bit set -/
def Hit (b : Bloom) (el : CString) (i : ℕ) : Prop := ∃ p, probe b.size el i = some p ∧ b.has p = true

/-- the `i`-th probe of `el` finds its bit not set -/
def Miss (b : Bloom) (el : CString) (i : ℕ) : Prop := ∃ p, probe b.size el i = some p ∧ b.has p = false

theorem lookupFrom_true (b : Bloom) (el : CString) (n i : ℕ) :
    b.lookupFrom el n i = some true ↔ ∀ j, i ≤ j → j < i + n → b.Hit el j := by
  induction n generalizing i with
  | zero => exact iff_of_true rfl fun j hij hj => by omega
  | succ n ih =>
    rw [forall_rounds, ← ih, lookupFrom_succ, Option.bind_eq_some_iff, Hit, ← exists_and_right]
    refine exists_congr fun p => (and_congr_right fun _ => ?_).trans and_assoc.symm
    cases b.has p <;> simp

/-- the first probe that misses ends the loop; those before it are defined -/
theorem lookupFrom_false (b : Bloom) (el : CString) (n i : ℕ) :
    b.lookupFrom el n i = some false ↔
      ∃ j, i ≤ j ∧ j < i + n ∧ (∀ l, i ≤ l → l < j → (probe b.size el l).isSome = true) ∧ b.Miss el j := by
  induction n generalizing i with
  | zero =>
    refine iff_of_false (fun h => absurd (Option.some.inj h).symm Bool.false_ne_true) ?_
    rintro ⟨j, hij, hj, -⟩
    omega
  | succ n ih =>
    rw [lookupFrom_succ, Option.bind_eq_some_iff]
    constructor
    · intro ⟨p, hp, h⟩
      split at h
      · obtain ⟨j, hij, hj, hbefore, hmiss⟩ := (ih (i + 1)).1 h
        refine ⟨j, by omega, by omega, fun l hil hl => ?_, hmiss⟩
        rcases Nat.eq_or_lt_of_le hil with rfl | hlt
        · rw [hp]
          rfl
        · exact hbefore l hlt hl
      · next hbit =>
        exact ⟨i, Nat.le_refl _, by omega, fun l hil hl => by omega, p, hp, Bool.eq_false_of_not_eq_true hbit⟩
    · intro ⟨j, hij, hj, hbefore, hmiss⟩
      rcases Nat.eq_or_lt_of_le hij with rfl | hlt
      · obtain ⟨p, hp, hbit⟩ := hmiss
        exact ⟨p, hp, if_neg (Bool.eq_false_iff.1 hbit)⟩
      · obtain ⟨p, hp⟩ := Option.isSome_iff_exists.1 (hbefore i (Nat.le_refl _) hlt)
        refine ⟨p, hp, ?_⟩
        split
        · exact (ih (i + 1)).2 ⟨j, hlt, by omega, fun l hil hl => hbefore l (by omega) hl, hmiss⟩
        · rfl

/-- every probe finds its bit -/
theorem lookup_true (b : Bloom) (el : CString) :
    b.lookup el = some true ↔ ∀ i, 1 ≤ i → i ≤ b.hashFunctions → b.Hit el i := by
  rw [lookup, lookupFrom_true]
  exact forall₂_congr fun i _ => by rw [Nat.add_comm, Nat.lt_succ_iff]

/-- a probe misses that the loop reaches -/
theorem lookup_false (b : Bloom) (el : CString) :
    b.lookup el = some false ↔ ∃ i, 1 ≤ i ∧ i ≤ b.hashFunctions ∧ Probeable b.size i ∧ b.Miss el i := by
  rw [lookup, lookupFrom_false]
  refine exists_congr fun i => and_congr_right fun hi => ?_
  rw [Nat.add_comm, Nat.lt_succ_iff]
  refine and_congr_right fun _ => and_congr_left fun ⟨p, hp, _⟩ => ?_
  rw [← probes_isSome b.size el]
  constructor
  · intro h j hj hji
    rcases Nat.eq_or_lt_of_le hji with rfl | hlt
    · rw [hp]
      rfl
    · exact h j hj hlt
  · intro h j hj hji
    exact h j hj (Nat.le_of_lt hji)

/-- a series of `add` calls -/
theorem adds_isSome (b : Bloom) (els : List CString) :
    (run add b els).isSome = true ↔ els = [] ∨ Probeable b.size b.hashFunctions := by
  induction els generalizing b with
  | nil => exact iff_of_true rfl (Or.inl rfl)
  | cons el els ih =>
    have hadd := add_isSome b el
    rw [run, or_iff_right (List.cons_ne_nil _ _), ← hadd]
    cases h : b.add el with
    | none => exact iff_of_false Bool.false_ne_true Bool.false_ne_true
    | some b' =>
      obtain ⟨hsize, hk, -⟩ := add_spec h
      rw [h] at hadd
      rw [Option.bind_some, ih, hsize, hk]
      exact iff_of_true (Or.inr (hadd.1 rfl)) rfl

theorem adds_spec {b b' : Bloom} {els : List CString} (h : run add b els = some b') :
    b'.size = b.size ∧ b'.hashFunctions = b.hashFunctions ∧
      ∀ q, b'.has q = true ↔ b.has q = true ∨ ∃ el ∈ els, Probed b.size b.hashFunctions el q := by
  induction els generalizing b with
  | nil =>
    obtain rfl := Option.some.inj h
    exact ⟨rfl, rfl, fun q => (or_iff_left fun ⟨el, hel, _⟩ => List.not_mem_nil hel).symm⟩
  | cons el els ih =>
    obtain ⟨c, hc, h⟩ := Option.bind_eq_some_iff.1 h
    obtain ⟨hsize, hk, hbits⟩ := add_spec hc
    obtain ⟨hsize', hk', hbits'⟩ := ih h
    refine ⟨hsize'.trans hsize, hk'.trans hk, fun q => ?_⟩
    rw [hbits', hbits, hsize, hk, or_assoc, List.exists_mem_cons_iff]

theorem merge_same {b : Bloom} {bytes : List UInt8} (h : bytes.length = b.size) :
    ∃ m, b.merge b.size bytes = .returns m ∧ m.size = b.size ∧ m.hashFunctions = b.hashFunctions ∧
      ∀ q, m.has q = true ↔ b.has q = true ∨ bitAt bytes q = true := by
  have hlen : b.bitField.length = bytes.length := b.valid.1.trans h.symm
  rw [merge, if_neg (not_not_intro rfl), dif_pos (Nat.le_of_eq hlen)]
  refine ⟨_, rfl, rfl, rfl, fun q => ?_⟩
  rw [has, bitAt_zipWith_or hlen, Bool.or_eq_true, has]

theorem merge_other {b : Bloom} {size : ℕ} (bytes : List UInt8) (h : size ≠ b.size) :
    b.merge size bytes = .throws b :=
  if_pos h.symm

theorem calculateK_pos (size numberOfElements : ℕ) : 1 ≤ calculateK size numberOfElements := by
  have hpos : ∀ k : ℕ, 1 ≤ if k = 0 then 1 else k := by
    intro k
    split <;> omega
  exact hpos _

namespace Origin

/-- the `add` calls are defined -/
def Addable (o : Origin) : Prop := o.added = [] ∨ Probeable o.size o.hashFunctions

/-- `p` is the bit of a probe of an element that was added -/
def Marks (o : Origin) (p : ℕ) : Prop := ∃ el ∈ o.added, Probed o.size o.hashFunctions el p

/-- bit `p` is set in the memory that the filter got, or by an element -/
def Sets (o : Origin) (p : ℕ) : Prop := bitAt o.fresh p = true ∨ o.Marks p

theorem build_isSome (o : Origin) : o.build.isSome = true ↔ o.Addable := adds_isSome _ _

theorem build_spec {o : Origin} {b : Bloom} (h : o.build = some b) :
    b.size = o.size ∧ b.hashFunctions = o.hashFunctions ∧ ∀ q, b.has q = true ↔ o.Sets q := adds_spec h

theorem build_of_addable {o : Origin} (h : o.Addable) : ∃ b, o.build = some b :=
  Option.isSome_iff_exists.1 (o.build_isSome.2 h)

/-- every probe of an element that was added is defined and sets its bit -/
theorem marks_added {o : Origin} (h : o.Addable) {el : CString} (hel : el ∈ o.added) {i : ℕ} (hi : 1 ≤ i)
    (hik : i ≤ o.hashFunctions) : ∃ p, probe o.size el i = some p ∧ o.Marks p := by
  have hk : Probeable o.size o.hashFunctions := h.resolve_left (List.ne_nil_of_mem hel)
  obtain ⟨p, hp⟩ := Option.isSome_iff_exists.1 ((probes_isSome o.size el _).2 hk i hi hik)
  exact ⟨p, hp, el, hel, i, hi, hik, hp⟩

end Origin

/-! ## Merge -/

/-- a filter merged with one of the same size reports the elements of both; another size throws and changes nothing -/
def MergesAsUnion (o o' : Origin) : Prop :=
  ∃ a b, o.build = some a ∧ o'.build = some b ∧
    (a.size = b.size → ∃ m, a.merge b.size b.bitField = .returns m ∧
      ∀ x ∈ o.added ++ o'.added, m.lookup x = some true) ∧
    ∀ size bytes, size ≠ a.size → a.merge size bytes = .throws a

/-- **Merge.** It is a union exactly when the `add` calls are defined and the elements of the second filter find, in one
filter or the other, the bits of the probes that only the first one makes. -/
theorem merge_union_iff (o o' : Origin) :
    MergesAsUnion o o' ↔ o.Addable ∧ o'.Addable ∧
      (o.size = o'.size → ∀ y ∈ o'.added, ∀ i, o'.hashFunctions < i → i ≤ o.hashFunctions →
        ∃ p, probe o.size y i = some p ∧ (o.Sets p ∨ o'.Sets p)) := by
  constructor
  · intro ⟨a, b, ha, hb, hunion, _⟩
    refine ⟨o.build_isSome.1 (ha ▸ rfl), o'.build_isSome.1 (hb ▸ rfl), fun hsize y hy i hi hik => ?_⟩
    obtain ⟨hasize, hak, habits⟩ := o.build_spec ha
    obtain ⟨hbsize, hbk, hbbits⟩ := o'.build_spec hb
    have hab : a.size = b.size := by rw [hasize, hbsize, hsize]
    obtain ⟨m, hm, hmsize, hmk, hmbits⟩ := merge_same (b.valid.1.trans hab.symm)
    obtain ⟨m', hm', hlookup⟩ := hunion hab
    rw [← hab, hm] at hm'
    obtain rfl := Outcome.returns.inj hm'
    obtain ⟨p, hp, hbit⟩ := (lookup_true m y).1 (hlookup y (List.mem_append_right _ hy)) i (by omega)
      (by rw [hmk, hak]; exact hik)
    rw [hmsize, hasize] at hp
    exact ⟨p, hp, ((hmbits p).1 hbit).imp (habits p).1 (hbbits p).1⟩
  · intro ⟨hadd, hadd', hextra⟩
    obtain ⟨a, ha⟩ := o.build_of_addable hadd
    obtain ⟨b, hb⟩ := o'.build_of_addable hadd'
    obtain ⟨hasize, hak, habits⟩ := o.build_spec ha
    obtain ⟨hbsize, hbk, hbbits⟩ := o'.build_spec hb
    refine ⟨a, b, ha, hb, fun hab => ?_, fun size bytes => merge_other bytes⟩
    have hsize : o.size = o'.size := by rw [← hasize, ← hbsize, hab]
    obtain ⟨m, hm, hmsize, hmk, hmbits⟩ := merge_same (b.valid.1.trans hab.symm)
    refine ⟨m, hab ▸ hm, fun x hx => (lookup_true m x).2 fun i hi hik => ?_⟩
    have hhit : ∃ p, probe o.size x i = some p ∧ (o.Sets p ∨ o'.Sets p) := by
      rw [hmk, hak] at hik
      rcases List.mem_append.1 hx with hx | hx
      · obtain ⟨p, hp, hmark⟩ := Origin.marks_added hadd hx hi hik
        exact ⟨p, hp, Or.inl (Or.inr hmark)⟩
      · by_cases hik' : i ≤ o'.hashFunctions
        · obtain ⟨p, hp, hmark⟩ := Origin.marks_added hadd' hx hi hik'
          exact ⟨p, hsize ▸ hp, Or.inr (Or.inr hmark)⟩
        · exact hextra hsize x hx i (by omega) hik
    obtain ⟨p, hp, hbit⟩ := hhit
    refine ⟨p, by rw [hmsize, hasize]; exact hp, (hmbits p).2 (hbit.imp (habits p).2 (hbbits p).2)⟩

/-- a merge that loses an element -/
theorem not_union {o o' : Origin} {x : CString} (hsize : o.size = o'.size) (hx : x ∈ o.added ++ o'.added)
    (h : (o.build.bind fun a => o'.build.bind fun b =>
      (a.merge b.size b.bitField).state.bind fun m => m.lookup x) ≠ some true) : ¬MergesAsUnion o o' := by
  intro ⟨a, b, ha, hb, hunion, _⟩
  obtain ⟨m, hm, hlookup⟩ := hunion (by rw [(o.build_spec ha).1, (o'.build_spec hb).1, hsize])
  apply h
  rw [ha, hb, Option.bind_some, Option.bind_some, hm]
  exact hlookup x hx

/-- 8 bytes make 4 probes for 10 elements and one for 1000: the first filter looks for three bits of the element that
the second one never set -/
theorem merge_more_probes :
    let o : Origin := ⟨8, 10, List.replicate 8 0, by decide, []⟩
    let o' : Origin := ⟨8, 0, List.replicate 8 0, by decide, [⟨[97, 0], by decide⟩]⟩
    o.hashFunctions = 4 ∧ o'.hashFunctions = 1 ∧ ¬MergesAsUnion o o' :=
  ⟨by decide, by decide, not_union rfl List.mem_cons_self (by decide)⟩

/-! ## Reports -/

/-- a lookup of `x` returns, true only if every probe of `x` is one of an element that was added, and false in a new
filter -/
def ReportsAdded (o : Origin) (x : CString) : Prop :=
  ∃ b found, o.build = some b ∧ b.lookup x = some found ∧
    (found = true → ∀ i, 1 ≤ i → i ≤ o.hashFunctions → ∃ p, probe o.size x i = some p ∧ o.Marks p) ∧
    (o.added = [] → found = false)

/-- **Reports.** A filter reports only what was added exactly when the `add` calls are defined and either some probe of
`x` that `lookup` reaches is at a bit that is neither an added element's nor set in the memory that the filter got, or
every probe is an added element's. -/
theorem reports_added_iff (o : Origin) (x : CString) :
    ReportsAdded o x ↔ o.Addable ∧
      ((∃ i, 1 ≤ i ∧ i ≤ o.hashFunctions ∧ Probeable o.size i ∧ ∃ p, probe o.size x i = some p ∧
          bitAt o.fresh p = false ∧ ¬o.Marks p) ∨
        ∀ i, 1 ≤ i → i ≤ o.hashFunctions → ∃ p, probe o.size x i = some p ∧ o.Marks p) := by
  have hclear : ∀ {p}, ¬o.Sets p ↔ bitAt o.fresh p = false ∧ ¬o.Marks p := by
    intro p
    rw [Origin.Sets, not_or, Bool.not_eq_true]
  constructor
  · intro ⟨b, found, hb, hlookup, honly, _⟩
    refine ⟨o.build_isSome.1 (hb ▸ rfl), ?_⟩
    obtain ⟨hsize, hk, hbits⟩ := o.build_spec hb
    cases found with
    | true => exact Or.inr (honly rfl)
    | false =>
      obtain ⟨i, hi, hik, hprobe, p, hp, hmiss⟩ := (lookup_false b x).1 hlookup
      rw [hsize] at hprobe hp
      refine Or.inl ⟨i, hi, hk ▸ hik, hprobe, p, hp, hclear.1 fun hset => ?_⟩
      rw [(hbits p).2 hset] at hmiss
      exact Bool.noConfusion hmiss
  · intro ⟨hadd, h⟩
    obtain ⟨b, hb⟩ := o.build_of_addable hadd
    obtain ⟨hsize, hk, hbits⟩ := o.build_spec hb
    rcases h with ⟨i, hi, hik, hprobe, p, hp, hp'⟩ | hall
    · refine ⟨b, false, hb, (lookup_false b x).2 ⟨i, hi, hk ▸ hik, hsize ▸ hprobe, p, hsize ▸ hp, ?_⟩, nofun,
        fun _ => rfl⟩
      exact Bool.eq_false_iff.2 fun hset => hclear.2 hp' ((hbits p).1 hset)
    · refine ⟨b, true, hb, (lookup_true b x).2 fun i hi hik => ?_, fun _ => hall, fun hnew => ?_⟩
      · obtain ⟨p, hp, hmark⟩ := hall i hi (hk ▸ hik)
        exact ⟨p, hsize ▸ hp, (hbits p).2 (Or.inr hmark)⟩
      · obtain ⟨p, -, el, hel, -⟩ := hall 1 (Nat.le_refl _) (calculateK_pos _ _)
        rw [hnew] at hel
        exact absurd hel List.not_mem_nil

theorem not_reports {o : Origin} {x : CString} (hnew : o.added = [])
    (h : (o.build.bind fun b => b.lookup x) = some true) : ¬ReportsAdded o x := by
  intro ⟨b, found, hb, hlookup, _, hfalse⟩
  rw [hb, Option.bind_some, hlookup, hfalse hnew] at h
  exact absurd h nofun

/-- one byte of memory with all bits set: the new filter reports `"a"` -/
theorem new_filter_reports :
    let o : Origin := ⟨1, 0, [255], by decide, []⟩
    let x : CString := ⟨[97, 0], by decide⟩
    (o.build.bind fun b => b.lookup x) = some true ∧ ¬ReportsAdded o x :=
  ⟨by decide, not_reports rfl (by decide)⟩

/-! ## Arithmetic -/

/-- what `add` and `lookup` of `el` compute is defined, for every index up to the number of hash functions -/
structure ArithmeticDefined (b : Bloom) (el : CString) : Prop where
  /-- `i * i` is an `int` -/
  squares : ∀ i, 1 ≤ i → i ≤ b.hashFunctions → toInt i * toInt i < 2 ^ 31
  /-- the divisor is not 0, and the byte of the bit is in the bit field -/
  bytes : ∀ i, 1 ≤ i → i ≤ b.hashFunctions → ∃ p, probe b.size el i = some p ∧ p / 8 < b.size
  add_isSome : (b.add el).isSome = true
  lookup_isSome : (b.lookup el).isSome = true

theorem Probeable.mono {size k i : ℕ} (h : Probeable size k) (hik : i ≤ k) : Probeable size i := by
  rcases h with hk | ⟨hk, hm⟩
  · exact Or.inl (by omega)
  · exact Or.inr ⟨Nat.le_trans hik hk, hm⟩

theorem lookup_isSome {b : Bloom} (h : Probeable b.size b.hashFunctions) (el : CString) :
    (b.lookup el).isSome = true := by
  by_cases hall : ∀ i, 1 ≤ i → i ≤ b.hashFunctions → b.Hit el i
  · rw [(lookup_true b el).2 hall]
    rfl
  · push Not at hall
    obtain ⟨i, hi, hik, hno⟩ := hall
    obtain ⟨p, hp⟩ := Option.isSome_iff_exists.1 ((probes_isSome b.size el _).2 h i hi hik)
    have hmiss : b.Miss el i := ⟨p, hp, Bool.eq_false_iff.2 fun hbit => hno ⟨p, hp, hbit⟩⟩
    rw [(lookup_false b el).2 ⟨i, hi, hik, h.mono hik, hmiss⟩]
    rfl

/-- **Arithmetic.** It is defined, for whatever element, exactly when there are no hash functions, or at most 46340 of
them and a size that is not 0 in bits. -/
theorem arithmetic_defined_iff (b : Bloom) (el : CString) :
    ArithmeticDefined b el ↔
      b.hashFunctions = 0 ∨ (b.hashFunctions ≤ 46340 ∧ b.size * 8 % 2 ^ 64 ≠ 0) := by
  constructor
  · intro h
    exact (add_isSome b el).1 h.add_isSome
  · intro h
    have hdef := (probes_isSome b.size el b.hashFunctions).2 h
    refine ⟨fun i hi hik => ?_, fun i hi hik => ?_, (add_isSome b el).2 h, lookup_isSome h el⟩
    · exact ((probe_isSome b.size el i).1 (hdef i hi hik)).1
    · obtain ⟨p, hp⟩ := Option.isSome_iff_exists.1 (hdef i hi hik)
      exact ⟨p, hp, probe_lt hp⟩

/-- a filter of size 0 divides by 0, and 46341 hash functions square 46341 -/
theorem arithmetic_undefined :
    let a : CString := ⟨[97, 0], by decide⟩
    (make 0 0 [] (by decide)).hashFunctions = 1 ∧ ¬ArithmeticDefined (make 0 0 [] (by decide)) a ∧
      ¬ArithmeticDefined ⟨[0], 1, 46341, by decide⟩ a := by
  refine ⟨by decide, fun h => ?_, fun h => ?_⟩
  · exact absurd h.add_isSome (by decide)
  · exact absurd (h.squares 46341 (by decide) (by decide)) (by decide)

end Bloom

end K23Search
