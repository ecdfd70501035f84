/-
`edit_distance` (distances.cpp) access by access: both strings are read through a pointer and an `int` index, `d` is
indexed by `int`s, and the lengths are the sizes converted to `int`. An access outside a string or the buffer, a read of
an entry that was never written and a loop that does not end are `none`. `editDistance` works on the lists of characters
that the pointers stand for; here it is refined.

Results:
- `editDistanceAt_eq`: on strings of fewer than 2^31 characters the two agree;
- `edit_distance_exact`: there, while the row fits the buffer, every access is in bounds and the value is the least
  number of insertions, deletions and substitutions.
Counterexample: `size_overflows`.
-/
import K23Search.Text.Distances

namespace K23Search.Text

open K23Search.Lib

/-! ## Model -/

/-- the conversion `(int)` of a size -/
def intOfSize (n : ℕ) : ℤ := if n % 2 ^ 32 < 2 ^ 31 then (n % 2 ^ 32 : ℕ) else (n % 2 ^ 32 : ℕ) - 2 ^ 32

/-- a pointer `str + pos` and the length that goes with it -/
structure Span where
  str : List UInt8
  pos : ℕ
  len : ℤ

namespace Span

/-- the character at index `i` from the pointer -/
def char (a : Span) (i : ℤ) : Option UInt8 := if 0 ≤ a.pos + i then a.str[(a.pos + i).toNat]? else none

/-- `str++; len--` -/
def next (a : Span) : Span := ⟨a.str, a.pos + 1, a.len - 1⟩

/-- `len--` -/
def drop (a : Span) : Span := ⟨a.str, a.pos, a.len - 1⟩

end Span

def EditBuffer.readAt (d : EditBuffer) (j : ℤ) : Option ℤ := if 0 ≤ j then d.read j.toNat else none

def EditBuffer.writeAt (d : EditBuffer) (j x : ℤ) : Option EditBuffer := if 0 ≤ j then d.write j.toNat x else none

/-- the loop that skips the common prefix -/
def skipPrefixAt : ℕ → Span → Span → Option (Span × Span)
  | 0, _, _ => none
  | fuel + 1, maxStr, minStr =>
    if 0 < minStr.len then (maxStr.char 0).bind fun x => (minStr.char 0).bind fun y =>
      if x = y then skipPrefixAt fuel maxStr.next minStr.next else some (maxStr, minStr)
    else some (maxStr, minStr)

/-- the loop that skips the common suffix -/
def skipSuffixAt : ℕ → Span → Span → Option (Span × Span)
  | 0, _, _ => none
  | fuel + 1, maxStr, minStr =>
    if 0 < minStr.len then (maxStr.char (maxStr.len - 1)).bind fun x => (minStr.char (minStr.len - 1)).bind fun y =>
      if x = y then skipSuffixAt fuel maxStr.drop minStr.drop else some (maxStr, minStr)
    else some (maxStr, minStr)

/-- the loop over `j`, with its remaining turns -/
def editRowAt (maxStr minStr : Span) (i : ℤ) : ℕ → ℤ → ℤ → EditBuffer → Option EditBuffer
  | 0, _, _, d => some d
  | n + 1, j, prev, d => (minStr.char (i - 1)).bind fun y => (maxStr.char (j - 1)).bind fun x =>
    let sub := prev + if y ≠ x then 1 else 0
    (d.readAt (j - 1)).bind fun del => (d.readAt j).bind fun ins =>
      (d.writeAt j (min sub (min del ins + 1))).bind fun d => editRowAt maxStr minStr i n (j + 1) ins d

/-- the loop over `i`, with its remaining turns -/
def editRowsAt (maxStr minStr : Span) : ℕ → ℤ → EditBuffer → Option EditBuffer
  | 0, _, d => some d
  | n + 1, i, d => (d.writeAt 0 i).bind fun d =>
    (editRowAt maxStr minStr i maxStr.len.toNat 1 (i - 1) d).bind fun d => editRowsAt maxStr minStr n (i + 1) d

def editTableAt (maxStr minStr : Span) : Option ℤ :=
  if minStr.len = 0 then some maxStr.len
  else (initEditBuffer (fun _ => none) (maxStr.len + 1).toNat).bind fun d =>
    (editRowsAt maxStr minStr minStr.len.toNat 1 d).bind fun d => d.readAt maxStr.len

/-- `edit_distance(s1, s2)` -/
def editDistanceAt (s1 s2 : List UInt8) : Option ℤ :=
  let maxStr : Span := ⟨s1, 0, intOfSize s1.length⟩
  let minStr : Span := ⟨s2, 0, intOfSize s2.length⟩
  let (maxStr, minStr) := if maxStr.len < minStr.len then (minStr, maxStr) else (maxStr, minStr)
  (skipPrefixAt (minStr.len.toNat + 1) maxStr minStr).bind fun (maxStr, minStr) =>
    (skipSuffixAt (minStr.len.toNat + 1) maxStr minStr).bind fun (maxStr, minStr) => editTableAt maxStr minStr

/-! ## What the pointers stand for -/

theorem intOfSize_eq {n : ℕ} (h : n < 2 ^ 31) : intOfSize n = n := by
  have hmod : n % 2 ^ 32 = n := Nat.mod_eq_of_lt (by omega)
  rw [intOfSize, hmod, if_pos h]

/-- the characters from the pointer on are `l`, inside the string -/
def Span.Holds (a : Span) (l : List UInt8) : Prop := ∃ p e, a.str = p ++ l ++ e ∧ a.pos = p.length ∧ a.len = l.length

section Holds

variable {a b : Span} {l m : List UInt8} {d : EditBuffer}

/-- a character of the list is read inside the string -/
theorem Span.Holds.char {u v : List UInt8} {x : UInt8} (h : a.Holds (u ++ x :: v)) : a.char u.length = some x := by
  obtain ⟨p, e, hstr, hpos, -⟩ := h
  have hindex : ((a.pos : ℤ) + u.length).toNat = (p ++ u).length := by
    rw [hpos, List.length_append]
    omega
  have hsplit : p ++ (u ++ x :: v) ++ e = (p ++ u) ++ x :: (v ++ e) := by simp
  rw [Span.char, if_pos (by omega), hindex, hstr, hsplit, List.getElem?_append_right le_rfl, Nat.sub_self]
  rfl

theorem Span.Holds.next {x : UInt8} (h : a.Holds (x :: l)) : a.next.Holds l := by
  obtain ⟨p, e, hstr, hpos, hlen⟩ := h
  refine ⟨p ++ [x], e, by simp [Span.next, hstr], by simp [Span.next, hpos], ?_⟩
  simp only [Span.next, hlen, List.length_cons]
  omega

theorem Span.Holds.drop {x : UInt8} (h : a.Holds (l ++ [x])) : a.drop.Holds l := by
  obtain ⟨p, e, hstr, hpos, hlen⟩ := h
  refine ⟨p, x :: e, by simp [Span.drop, hstr], hpos, ?_⟩
  simp only [Span.drop, hlen, List.length_append, List.length_singleton]
  omega

@[simp] theorem readAt_natCast (j : ℕ) : d.readAt j = d.read j := by simp [EditBuffer.readAt]

@[simp] theorem writeAt_natCast (j : ℕ) (x : ℤ) : d.writeAt j x = d.write j x := by simp [EditBuffer.writeAt]

/-! ## The loops -/

theorem skipPrefixAt_spec (ha : a.Holds l) (hb : b.Holds m) (hle : m.length ≤ l.length) {fuel : ℕ}
    (hfuel : m.length < fuel) :
    ∃ a' b', skipPrefixAt fuel a b = some (a', b') ∧ a'.Holds (skipPrefix l m).1 ∧ b'.Holds (skipPrefix l m).2 := by
  induction fuel generalizing a b l m with
  | zero => omega
  | succ fuel ih =>
    have hlen : b.len = m.length := hb.choose_spec.choose_spec.2.2
    cases m with
    | nil =>
      refine ⟨a, b, by simp [skipPrefixAt, hlen], ?_⟩
      cases l <;> exact ⟨ha, hb⟩
    | cons y m =>
      cases l with
      | nil => simp at hle
      | cons x l =>
        have hx : a.char 0 = some x := Span.Holds.char (u := []) ha
        have hy : b.char 0 = some y := Span.Holds.char (u := []) hb
        have hpos : 0 < b.len := by
          rw [hlen, List.length_cons]
          omega
        rw [skipPrefixAt, if_pos hpos, hx, hy, Option.bind_some, Option.bind_some, skipPrefix]
        by_cases hxy : x = y
        · rw [if_pos hxy, if_pos hxy]
          exact ih ha.next hb.next (by simpa using hle) (by simpa using hfuel)
        · rw [if_neg hxy, if_neg hxy]
          exact ⟨a, b, rfl, ha, hb⟩

/-- the same from the other end, on the reversed lists -/
theorem skipSuffixAt_spec (ha : a.Holds l.reverse) (hb : b.Holds m.reverse) (hle : m.length ≤ l.length) {fuel : ℕ}
    (hfuel : m.length < fuel) :
    ∃ a' b', skipSuffixAt fuel a b = some (a', b') ∧ a'.Holds (skipPrefix l m).1.reverse ∧
      b'.Holds (skipPrefix l m).2.reverse := by
  induction fuel generalizing a b l m with
  | zero => omega
  | succ fuel ih =>
    have hlenA : a.len = l.reverse.length := ha.choose_spec.choose_spec.2.2
    have hlenB : b.len = m.reverse.length := hb.choose_spec.choose_spec.2.2
    cases m with
    | nil =>
      refine ⟨a, b, by simp [skipSuffixAt, hlenB], ?_⟩
      cases l <;> exact ⟨ha, hb⟩
    | cons y m =>
      cases l with
      | nil => simp at hle
      | cons x l =>
        rw [List.reverse_cons] at ha hb
        have hx : a.char (a.len - 1) = some x := by
          rw [hlenA, List.reverse_cons, List.length_append, List.length_singleton, Nat.cast_add, Nat.cast_one,
            Int.add_sub_cancel]
          exact ha.char
        have hy : b.char (b.len - 1) = some y := by
          rw [hlenB, List.reverse_cons, List.length_append, List.length_singleton, Nat.cast_add, Nat.cast_one,
            Int.add_sub_cancel]
          exact hb.char
        have hpos : 0 < b.len := by
          rw [hlenB, List.length_reverse, List.length_cons]
          omega
        rw [skipSuffixAt, if_pos hpos, hx, hy, Option.bind_some, Option.bind_some, skipPrefix]
        by_cases hxy : x = y
        · rw [if_pos hxy, if_pos hxy]
          exact ih ha.drop hb.drop (by simpa using hle) (by simpa using hfuel)
        · rw [if_neg hxy, if_neg hxy]
          exact ⟨a, b, rfl, by rwa [List.reverse_cons], by rwa [List.reverse_cons]⟩

/-- one row, from the column after `done` -/
theorem editRowAt_eq (done rest : List UInt8) (ha : a.Holds (done ++ rest)) {i : ℤ} {y : UInt8}
    (hy : b.char (i - 1) = some y) (prev : ℤ) (d : EditBuffer) :
    editRowAt a b i rest.length (done.length + 1) prev d = editRow y (done.length + 1) rest prev d := by
  induction rest generalizing done prev d with
  | nil => rfl
  | cons x rest ih =>
    have hx : a.char (done.length : ℤ) = some x := ha.char
    have hread : ((done.length : ℤ) + 1) = ((done.length + 1 : ℕ) : ℤ) := by push_cast; rfl
    rw [List.length_cons, editRowAt, editRow, hy, Option.bind_some, Int.add_sub_cancel, hx, Option.bind_some,
      Nat.add_sub_cancel, readAt_natCast, hread, readAt_natCast]
    have hdone := fun prev d => ih (done ++ [x]) (by simpa using ha) prev d
    simp only [writeAt_natCast]
    simp only [List.length_append, List.length_singleton] at hdone
    simp only [← hdone]

/-- all rows, from the row of `done` -/
theorem editRowsAt_eq (done rest : List UInt8) (ha : a.Holds l) (hb : b.Holds (done ++ rest)) (d : EditBuffer) :
    editRowsAt a b rest.length (done.length + 1) d = editRows l (done.length + 1) rest d := by
  induction rest generalizing done d with
  | nil => rfl
  | cons y rest ih =>
    have hy : b.char ((done.length : ℤ) + 1 - 1) = some y := by
      rw [Int.add_sub_cancel]
      exact hb.char
    have hlen : a.len.toNat = l.length := by
      rw [ha.choose_spec.choose_spec.2.2, Int.toNat_natCast]
    have hrow := fun prev d => editRowAt_eq [] l (by simpa using ha) hy prev d
    simp only [List.length_nil, Nat.cast_zero, zero_add] at hrow
    have hdone := fun d => ih (done ++ [y]) (by simpa using hb) d
    simp only [List.length_append, List.length_singleton, Nat.cast_add, Nat.cast_one] at hdone
    have hzero : ∀ x, d.writeAt 0 x = d.write 0 x := fun x => writeAt_natCast 0 x
    rw [List.length_cons, editRowsAt, editRows, hzero, hlen]
    simp only [hrow, hdone, Nat.cast_add, Nat.cast_one]

theorem editTableAt_eq (ha : a.Holds l) (hb : b.Holds m) : editTableAt a b = editTable l m := by
  have hlenA : a.len = l.length := ha.choose_spec.choose_spec.2.2
  have hlenB : b.len = m.length := hb.choose_spec.choose_spec.2.2
  have hnil : (m.length : ℤ) = 0 ↔ m = [] := by
    rw [Int.natCast_eq_zero, List.length_eq_zero_iff]
  have hwidth : ((l.length : ℤ) + 1).toNat = l.length + 1 := by omega
  have hrows := fun d => editRowsAt_eq [] m ha hb d
  simp only [List.length_nil, Nat.cast_zero, zero_add] at hrows
  simp only [editTableAt, editTable, hlenA, hlenB, hnil, hwidth, Int.toNat_natCast, hrows, readAt_natCast]

end Holds

theorem holds_all {s : List UInt8} (h : s.length < 2 ^ 31) : Span.Holds ⟨s, 0, intOfSize s.length⟩ s :=
  ⟨[], [], by simp, rfl, intOfSize_eq h⟩

/-- **Refinement.** On strings whose sizes fit an `int`, the accesses are those of `editDistance`. -/
theorem editDistanceAt_eq {s1 s2 : List UInt8} (h1 : s1.length < 2 ^ 31) (h2 : s2.length < 2 ^ 31) :
    editDistanceAt s1 s2 = editDistance s1 s2 := by
  have hcore : ∀ {a b : Span} {s t : List UInt8}, a.Holds s → b.Holds t → t.length ≤ s.length →
      ((skipPrefixAt (b.len.toNat + 1) a b).bind fun (a, b) =>
        (skipSuffixAt (b.len.toNat + 1) a b).bind fun (a, b) => editTableAt a b) =
      editTable (skipSuffix (skipPrefix s t).1 (skipPrefix s t).2).1 (skipSuffix (skipPrefix s t).1 (skipPrefix s t).2).2 := by
    intro a b s t ha hb hle
    have hlen : ∀ {b : Span} {t : List UInt8}, b.Holds t → b.len.toNat = t.length := by
      intro b t hb
      rw [hb.choose_spec.choose_spec.2.2, Int.toNat_natCast]
    have hfuel : t.length < b.len.toNat + 1 := by rw [hlen hb]; omega
    obtain ⟨a₁, b₁, hpre, ha₁, hb₁⟩ := skipPrefixAt_spec ha hb hle hfuel
    obtain ⟨p, hs, ht⟩ := skipPrefix_spec s t
    have hle₁ : (skipPrefix s t).2.length ≤ (skipPrefix s t).1.length := by
      have h1 := congrArg List.length hs
      have h2 := congrArg List.length ht
      rw [List.length_append] at h1 h2
      omega
    have hfuel₁ : (skipPrefix s t).2.reverse.length < b₁.len.toNat + 1 := by rw [hlen hb₁, List.length_reverse]; omega
    obtain ⟨a₂, b₂, hsuf, ha₂, hb₂⟩ := skipSuffixAt_spec (l := (skipPrefix s t).1.reverse) (by simpa using ha₁)
      (by simpa using hb₁) (by simpa using hle₁) hfuel₁
    simp only [hpre, Option.bind_some, hsuf]
    exact editTableAt_eq ha₂ hb₂
  have hlt : intOfSize s1.length < intOfSize s2.length ↔ s1.length < s2.length := by
    rw [intOfSize_eq h1, intOfSize_eq h2]
    omega
  rw [editDistanceAt, editDistance]
  simp only [hlt]
  by_cases hswap : s1.length < s2.length
  · rw [if_pos hswap, if_pos hswap]
    exact hcore (holds_all h2) (holds_all h1) (Nat.le_of_lt hswap)
  · rw [if_neg hswap, if_neg hswap]
    exact hcore (holds_all h1) (holds_all h2) (Nat.le_of_not_lt hswap)

/-- **The edit distance, access by access.** For two strings of fewer than 2^31 characters whose longer remainder, once
the common ends are skipped, fits the buffer, every access is in bounds and the result is the least cost of an alignment;
in particular for all words of the interface. -/
theorem edit_distance_exact {s1 s2 : List UInt8} (h1 : s1.length < 2 ^ 31) (h2 : s2.length < 2 ^ 31)
    (h : (editRest s1 s2).length < editBufferSize ∨ (s1.length ≤ maxWordLength ∧ s2.length ≤ maxWordLength)) :
    editDistanceAt s1 s2 = some (lev s1 s2 : ℤ) ∧ Align s1 s2 (lev s1 s2) ∧ ∀ n, Align s1 s2 n → lev s1 s2 ≤ n := by
  refine ⟨?_, align_lev s1 s2, fun n hn => lev_le hn⟩
  rw [editDistanceAt_eq h1 h2]
  rcases h with h | ⟨hw1, hw2⟩
  · exact editDistance_eq h
  · exact editDistance_words hw1 hw2

/-- two words of the repository's test of this distance, `ac` and `abc` -/
theorem edit_distance_exact_abc :
    editDistanceAt [97, 99] [97, 98, 99] = some 1 ∧ Align ([97, 99] : List UInt8) [97, 98, 99] 1 ∧
      ∀ n, Align ([97, 99] : List UInt8) [97, 98, 99] n → 1 ≤ n := by
  have hlev : lev ([97, 99] : List UInt8) [97, 98, 99] = 1 := by decide
  have h := @edit_distance_exact [97, 99] [97, 98, 99] (by decide) (by decide) (.inr (by decide))
  rw [hlev] at h
  exact h

/-! ## Longer strings -/

theorem skipPrefix_self (s : List UInt8) : skipPrefix s s = ([], []) := by
  induction s with
  | nil => rfl
  | cons x s ih => rw [skipPrefix, if_pos rfl, ih]

/-- on a string and itself, with a size that is converted to a negative `int`, the last read is outside the buffer -/
theorem editDistanceAt_negative {s : List UInt8} (h : intOfSize s.length < 0) : editDistanceAt s s = none := by
  have hpos : ¬ 0 < intOfSize s.length := by omega
  have hne : intOfSize s.length ≠ 0 := by omega
  have hturns : (intOfSize s.length).toNat = 0 := by omega
  have hwidth : (intOfSize s.length + 1).toNat = 0 := by omega
  have hread : ∀ d : EditBuffer, d.readAt (intOfSize s.length) = none := fun d => if_neg (by omega)
  simp only [editDistanceAt, Int.lt_irrefl, if_false, hturns, skipPrefixAt, skipSuffixAt, if_neg hpos, Option.bind_some,
    editTableAt, if_neg hne, hwidth, initEditBuffer, editRowsAt, hread]

/-- nothing is left of such a string and itself once the common ends are skipped, and their distance is 0 -/
theorem overflows_of_length {s : List UInt8} (h : s.length = 2 ^ 31) :
    (editRest s s).length < editBufferSize ∧ editDistanceAt s s ≠ some (lev s s : ℤ) := by
  have hneg : intOfSize s.length < 0 := by
    rw [h]
    decide
  constructor
  · simp only [editRest, Nat.lt_irrefl, if_false, skipPrefix_self]
    decide
  · rw [editDistanceAt_negative hneg]
    simp

/-- the string of 2^31 times the letter `a`, and itself -/
theorem size_overflows : ¬ ∀ s1 s2 : List UInt8, (editRest s1 s2).length < editBufferSize →
    editDistanceAt s1 s2 = some (lev s1 s2 : ℤ) := by
  intro h
  have hlong := overflows_of_length (List.length_replicate (n := 2 ^ 31) (a := 97))
  exact hlong.2 (h _ _ hlong.1)

end K23Search.Text
