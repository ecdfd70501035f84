/-
`qs::string` (string.h, string.cpp): the value, construction from a C string, and the comparison operators.

A `QsString` carries what its constructors establish: a buffer of `cap` bytes with a NUL at `len`, or no buffer at all
(default-constructed and moved-from strings). A C string is the memory from its pointer on. A read outside a buffer is
`none`.

`==` compares the lengths first; the order operators compare the common length only.

Results:
- `compare_spec`, `eq_spec`: what the operators decide on the contents;
- `orderLaws_iff`: the operators are consistent on two strings exactly when neither is a proper prefix of the other.
-/
import K23Search.Lib.FirstDifference
import Mathlib.Data.Int.Notation
import Mathlib.Data.Option.Basic
import Mathlib.Data.UInt

namespace K23Search.Text

open K23Search.Lib

/-! ## Bytes -/

/-- `memcmp` compares bytes as `unsigned char` -/
local instance byteOrder : LinearOrder UInt8 where
  le_refl _ := UInt8.le_refl _
  le_trans _ _ _ := UInt8.le_trans
  le_antisymm _ _ := UInt8.le_antisymm
  le_total := UInt8.le_total
  lt_iff_le_not_ge _ _ := @lt_iff_le_not_ge ℕ _ _ _
  toDecidableLE := inferInstance
  toDecidableEq := inferInstance
  toDecidableLT := inferInstance

/-- `memcmp`: the difference at the first byte that differs, of which only the sign is specified. With `n = 0` it reads
nothing. -/
def memcmp : List UInt8 → List UInt8 → ℕ → Option ℤ
  | _, _, 0 => some 0
  | x :: xs, y :: ys, n + 1 => if x = y then memcmp xs ys n else some ((x.toNat : ℤ) - y.toNat)
  | _, _, _ + 1 => none

/-- `strlen`; memory without a NUL is read to its end -/
def strlen (mem : List UInt8) : Option ℕ := mem.findIdx? (· = 0)

/-- the order operators, on the common length of two byte sequences -/
def compareCommon (rel : ℤ → Bool) (first second : List UInt8) (m n : ℕ) : Option Bool :=
  (memcmp first second (min m n)).map rel

/-- the equality operators -/
def equalBytes (first second : List UInt8) (m n : ℕ) : Option Bool :=
  if m = n then (memcmp first second m).map (· == 0) else some false

/-! ## The string -/

structure QsString where
  /-- the buffer; `nullptr` is `none` -/
  str : Option (List UInt8)
  cap : ℕ
  len : ℕ
  valid : match str with
    | none => cap = 0 ∧ len = 0
    | some buf => buf.length = cap ∧ len < cap ∧ buf[len]? = some 0
deriving DecidableEq

namespace QsString

/-- `string()` -/
def null : QsString := ⟨none, 0, 0, rfl, rfl⟩

/-- the bytes that can be read from `data()` on -/
def data (s : QsString) : List UInt8 := s.str.getD []

/-- the characters of the string -/
def contents (s : QsString) : List UInt8 := s.data.take s.len

/-- `string(const char *source, size_t length)` -/
def ofBytes (source : List UInt8) (length : ℕ) : Option QsString :=
  if h : length ≤ source.length then
    some ⟨some (source.take length ++ [0]), length + 1, length, by
      simp only [List.length_append, List.length_take, Nat.min_eq_left h, List.length_singleton, true_and]
      exact ⟨Nat.lt_succ_self _, List.getElem?_append_right (by simp [h]) |>.trans (by simp [h])⟩⟩
  else none

/-- `string(const char *source)` -/
def ofPointer (source : List UInt8) : Option QsString := (strlen source).bind fun n => ofBytes source n

/-! The operators on two strings -/

def eq (first second : QsString) : Option Bool := equalBytes first.data second.data first.len second.len

def ne (first second : QsString) : Option Bool := (eq first second).map (!·)

def lt (first second : QsString) : Option Bool := compareCommon (· < 0) first.data second.data first.len second.len

def le (first second : QsString) : Option Bool := compareCommon (· ≤ 0) first.data second.data first.len second.len

def gt (first second : QsString) : Option Bool := compareCommon (0 < ·) first.data second.data first.len second.len

def ge (first second : QsString) : Option Bool := compareCommon (0 ≤ ·) first.data second.data first.len second.len

/-! The operators on a string and a C string -/

def eqPtr (first : QsString) (second : List UInt8) : Option Bool :=
  (strlen second).bind fun n => equalBytes first.data second first.len n

def nePtr (first : QsString) (second : List UInt8) : Option Bool := (eqPtr first second).map (!·)

def ltPtr (first : QsString) (second : List UInt8) : Option Bool :=
  (strlen second).bind fun n => compareCommon (· < 0) first.data second first.len n

def lePtr (first : QsString) (second : List UInt8) : Option Bool :=
  (strlen second).bind fun n => compareCommon (· ≤ 0) first.data second first.len n

def gtPtr (first : QsString) (second : List UInt8) : Option Bool :=
  (strlen second).bind fun n => compareCommon (0 < ·) first.data second first.len n

def gePtr (first : QsString) (second : List UInt8) : Option Bool :=
  (strlen second).bind fun n => compareCommon (0 ≤ ·) first.data second first.len n

end QsString

/-! ## What the operators decide -/

theorem memcmp_take (xs ys : List UInt8) (n : ℕ) : memcmp xs (ys.take n) n = memcmp xs ys n := by
  induction n generalizing xs ys with
  | zero => simp [memcmp]
  | succ n ih =>
    cases xs with
    | nil => simp [memcmp]
    | cons x xs =>
      cases ys with
      | nil => rfl
      | cons y ys => rw [List.take_succ_cons, memcmp, memcmp, ih]

/-- `memcmp` on the common length decides by the first difference -/
theorem memcmp_min (xs ys us vs : List UInt8) :
    ∃ z, memcmp (xs ++ us) (ys ++ vs) (min xs.length ys.length) = some z ∧ (z < 0 ↔ firstDiff xs ys = .lt) ∧
      (0 < z ↔ firstDiff xs ys = .gt) := by
  induction xs generalizing ys with
  | nil => exact ⟨0, by simp [memcmp], by simp, by simp⟩
  | cons x xs ih =>
    cases ys with
    | nil => exact ⟨0, by simp [memcmp], by simp, by simp⟩
    | cons y ys =>
      rw [List.length_cons, List.length_cons, Nat.succ_min_succ, List.cons_append, List.cons_append, memcmp]
      by_cases hxy : x = y
      · subst hxy
        rw [if_pos rfl, firstDiff_self_cons]
        exact ih ys
      · refine ⟨(x.toNat : ℤ) - y.toNat, if_neg hxy, ?_, ?_⟩
        · rw [firstDiff, Ordering.then_eq_lt, compare_lt_iff_lt, compare_eq_iff_eq, or_iff_left (fun h => hxy h.1),
            UInt8.lt_iff_toNat_lt]
          omega
        · rw [firstDiff, Ordering.then_eq_gt, compare_gt_iff_gt, compare_eq_iff_eq, or_iff_left (fun h => hxy h.1),
            UInt8.lt_iff_toNat_lt]
          omega

/-- `memcmp` on the whole length decides equality -/
theorem memcmp_length {xs ys : List UInt8} (us vs : List UInt8) (h : xs.length = ys.length) :
    ∃ z, memcmp (xs ++ us) (ys ++ vs) xs.length = some z ∧ (z = 0 ↔ xs = ys) := by
  obtain ⟨z, hz, hlt, hgt⟩ := memcmp_min xs ys us vs
  rw [← h, Nat.min_self] at hz
  refine ⟨z, hz, ?_⟩
  constructor
  · intro h0
    have heq : firstDiff xs ys = .eq := by
      cases hd : firstDiff xs ys with
      | eq => rfl
      | lt => have := hlt.2 hd; omega
      | gt => have := hgt.2 hd; omega
    rcases firstDiff_eq_iff.1 heq with hp | hp
    · exact hp.eq_of_length h
    · exact (hp.eq_of_length h.symm).symm
  · intro hxy
    rw [hxy, firstDiff_self] at hlt hgt
    simp only [reduceCtorEq, iff_false] at hlt hgt
    omega

theorem equalBytes_spec (xs ys us vs : List UInt8) :
    equalBytes (xs ++ us) (ys ++ vs) xs.length ys.length = some (decide (xs = ys)) := by
  rw [equalBytes]
  by_cases hlen : xs.length = ys.length
  · obtain ⟨z, hz, hiff⟩ := memcmp_length us vs hlen
    rw [if_pos hlen, hz, Option.map_some, Option.some.injEq, ← decide_eq_decide.2 hiff]
    rfl
  · rw [if_neg hlen, decide_eq_false fun h => hlen (congrArg List.length h)]

namespace QsString

variable {a b c : QsString}

/-- the buffer starts with the contents -/
theorem data_eq (s : QsString) : ∃ rest, s.data = s.contents ++ rest ∧ s.contents.length = s.len := by
  refine ⟨s.data.drop s.len, (List.take_append_drop _ _).symm, ?_⟩
  obtain ⟨str, cap, len, valid⟩ := s
  rw [contents, List.length_take, Nat.min_eq_left]
  cases str with
  | none => exact Nat.le_of_eq valid.2
  | some buf =>
    have hlt : len < buf.length := valid.1 ▸ valid.2.1
    exact Nat.le_of_lt hlt

/-- the order operators decide by the first difference of the contents -/
theorem compare_spec (a b : QsString) :
    let d := firstDiff a.contents b.contents
    lt a b = some d.isLT ∧ gt a b = some d.isGT ∧ le a b = some d.isLE ∧ ge a b = some d.isGE := by
  obtain ⟨us, ha, hla⟩ := a.data_eq
  obtain ⟨vs, hb, hlb⟩ := b.data_eq
  obtain ⟨z, hz, hlt, hgt⟩ := memcmp_min a.contents b.contents us vs
  rw [← ha, ← hb, hla, hlb] at hz
  simp only [lt, gt, le, ge, compareCommon, hz, Option.map_some, Option.some.injEq]
  cases hd : firstDiff a.contents b.contents with
  | lt =>
    have := hlt.2 hd
    simp only [Ordering.isLT, Ordering.isGT, Ordering.isLE, Ordering.isGE, decide_eq_true_eq, decide_eq_false_iff_not]
    omega
  | eq =>
    rw [hd] at hlt hgt
    simp only [reduceCtorEq, iff_false] at hlt hgt
    simp only [Ordering.isLT, Ordering.isGT, Ordering.isLE, Ordering.isGE, decide_eq_true_eq, decide_eq_false_iff_not]
    omega
  | gt =>
    have := hgt.2 hd
    simp only [Ordering.isLT, Ordering.isGT, Ordering.isLE, Ordering.isGE, decide_eq_true_eq, decide_eq_false_iff_not]
    omega

/-- `==` decides whether the contents are the same -/
theorem eq_spec (a b : QsString) : eq a b = some (decide (a.contents = b.contents)) := by
  obtain ⟨us, ha, hla⟩ := a.data_eq
  obtain ⟨vs, hb, hlb⟩ := b.data_eq
  rw [eq, ha, hb, ← hla, ← hlb, equalBytes_spec]

/-! ## Consistency -/

/-- neither `a < b` nor `a > b` -/
def Incomparable (a b : QsString) : Prop := lt a b = some false ∧ gt a b = some false

/-- the operators on two strings and on a string and a C string agree -/
structure AgreesWith (a t : QsString) (p : List UInt8) : Prop where
  eq : eqPtr a p = eq a t
  ne : nePtr a p = ne a t
  lt : ltPtr a p = lt a t
  le : lePtr a p = le a t
  gt : gtPtr a p = gt a t
  ge : gePtr a p = ge a t

/-- the laws of a total order that is consistent with `==`, on three strings and a C string -/
structure OrderLaws (a b c : QsString) (p : List UInt8) : Prop where
  /-- exactly one of `a < b`, `a == b` and `a > b` -/
  trichotomy : (lt a b, eq a b, gt a b) ∈
    [(some true, some false, some false), (some false, some true, some false), (some false, some false, some true)]
  le_iff : le a b = some true ↔ lt a b = some true ∨ eq a b = some true
  ge_iff : ge a b = some true ↔ gt a b = some true ∨ eq a b = some true
  lt_trans : lt a b = some true → lt b c = some true → lt a c = some true
  incomparable_trans : Incomparable a b → Incomparable b c → Incomparable a c
  pointer : ∀ t, ofPointer p = some t → AgreesWith a t p

theorem lt_iff : lt a b = some true ↔ firstDiff a.contents b.contents = .lt := by
  rw [(compare_spec a b).1, Option.some.injEq, Ordering.isLT_iff_eq_lt]

theorem incomparable_iff : Incomparable a b ↔ firstDiff a.contents b.contents = .eq := by
  rw [Incomparable, (compare_spec a b).1, (compare_spec a b).2.1]
  cases firstDiff a.contents b.contents <;> simp

theorem ofPointer_some {p : List UInt8} {t : QsString} (h : ofPointer p = some t) :
    strlen p = some t.len ∧ t.len ≤ p.length ∧ t.data = p.take t.len ++ [0] := by
  obtain ⟨n, hn, ht⟩ := Option.bind_eq_some_iff.1 h
  rw [ofBytes] at ht
  split at ht
  · next hle =>
    cases ht
    exact ⟨hn, hle, rfl⟩
  · cases ht

/-- a comparison of no more than the length reads the same from the C string and from the string built from it -/
theorem memcmp_pointer {p : List UInt8} {t : QsString} (h : ofPointer p = some t) (xs : List UInt8) {n : ℕ}
    (hn : n ≤ t.len) : memcmp xs p n = memcmp xs t.data n := by
  obtain ⟨-, hle, hdata⟩ := ofPointer_some h
  have htake : t.data.take n = p.take n := by
    rw [hdata, List.take_append_of_le_length (by rw [List.length_take]; omega), List.take_take, Nat.min_eq_left hn]
  rw [← memcmp_take xs p, ← htake, memcmp_take]

theorem agreesWith_of_pointer (a : QsString) {p : List UInt8} {t : QsString} (h : ofPointer p = some t) :
    AgreesWith a t p := by
  have hlen := (ofPointer_some h).1
  have hcommon : ∀ rel, compareCommon rel a.data p a.len t.len = compareCommon rel a.data t.data a.len t.len := by
    intro rel
    rw [compareCommon, compareCommon, memcmp_pointer h _ (Nat.min_le_right _ _)]
  have heq : eqPtr a p = eq a t := by
    rw [eqPtr, hlen, Option.bind_some, eq, equalBytes, equalBytes]
    split
    · next hl => rw [memcmp_pointer h _ (Nat.le_of_eq hl)]
    · rfl
  constructor
  · exact heq
  · rw [nePtr, ne, heq]
  · rw [ltPtr, hlen]
    exact hcommon _
  · rw [lePtr, hlen]
    exact hcommon _
  · rw [gtPtr, hlen]
    exact hcommon _
  · rw [gePtr, hlen]
    exact hcommon _

/-- **Consistency.** The operators obey the laws of a total order with `==` on `a`, `b` and `c` exactly when neither of
`a` and `b` is a proper prefix of the other. -/
theorem orderLaws_iff (a b c : QsString) (p : List UInt8) :
    OrderLaws a b c p ↔
      (a.contents <+: b.contents → a.contents = b.contents) ∧ (b.contents <+: a.contents → a.contents = b.contents) := by
  obtain ⟨hlt, hgt, hle, hge⟩ := compare_spec a b
  constructor
  · intro h
    have htri := h.trichotomy
    have hpre : a.contents <+: b.contents ∨ b.contents <+: a.contents → a.contents = b.contents := by
      intro hp
      rw [hlt, hgt, eq_spec, firstDiff_eq_iff.2 hp] at htri
      simpa using htri
    exact ⟨fun hp => hpre (.inl hp), fun hp => hpre (.inr hp)⟩
  · intro h
    -- no difference on the common length is equality
    have hsame : firstDiff a.contents b.contents = .eq ↔ a.contents = b.contents := by
      rw [firstDiff_eq_iff]
      constructor
      · intro hp
        exact hp.elim h.1 h.2
      · intro hab
        exact .inl (hab ▸ List.prefix_refl _)
    have heq : eq a b = some (firstDiff a.contents b.contents).isEq := by
      rw [eq_spec, Option.some.injEq, Bool.eq_iff_iff, decide_eq_true_eq, Ordering.isEq_iff_eq_eq, hsame]
    constructor
    · rw [hlt, hgt, heq]
      cases firstDiff a.contents b.contents <;> simp
    · rw [hle, hlt, heq]
      cases firstDiff a.contents b.contents <;> simp
    · rw [hge, hgt, heq]
      cases firstDiff a.contents b.contents <;> simp
    · rw [lt_iff, lt_iff, lt_iff]
      exact firstDiff_trans
    · rw [incomparable_iff, incomparable_iff, incomparable_iff, hsame]
      intro hab hbc
      rwa [hab]
    · intro t ht
      exact agreesWith_of_pointer a ht

/-- `"ab"` and `"abc"`: none of `<`, `==` and `>` holds -/
theorem prefix_unordered : ¬∀ a b c p, OrderLaws a b c p := by
  intro h
  have hab := (h (.mk (some [97, 98, 0]) 3 2 (by decide)) (.mk (some [97, 98, 99, 0]) 4 3 (by decide)) null []).trichotomy
  exact absurd hab (by decide)

end QsString

end K23Search.Text
