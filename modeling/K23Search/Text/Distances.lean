/-
The two word distances (distances.cpp).

`hamming_distance` throws on words of different lengths. `edit_distance` works on the longer and the shorter word,
drops their common ends and fills one row of the usual table, in a buffer of `EDIT_BUFFER_SIZE` entries. In the model a
throw, an access outside the buffer and a read of an entry that was never written are `none`.

Results:
- `hammingDistance_eq`: on words of one length it is the number of mismatches;
- `editDistance_eq`: while the row fits the buffer it is the Levenshtein distance;
- `editDistance_words`: in particular on all words of up to `MAX_WORD_LENGTH` characters.
-/
import K23Search.Lib.EditDistance
import K23Search.Lib.MetricTree
import Mathlib.Data.Int.Cast.Lemmas
import Mathlib.Data.Nat.Cast.Order.Ring
import Mathlib.Logic.Function.Basic
import Mathlib.Tactic.NormNum.Basic

namespace K23Search.Text

open K23Search.Lib

/-! ## Model -/

def maxWordLength : ℕ := 31

def editBufferSize : ℕ := maxWordLength + maxWordLength

def hammingLoop : List UInt8 → List UInt8 → ℤ → ℤ
  | c1 :: s1, c2 :: s2, dist => hammingLoop s1 s2 (dist + if c1 ≠ c2 then 1 else 0)
  | _, _, dist => dist

def hammingDistance (s1 s2 : List UInt8) : Option ℤ :=
  if s1.length ≠ s2.length then none else some (hammingLoop s1 s2 0)

/-- the array `d`; `none` is an entry that was never written -/
abbrev EditBuffer := ℕ → Option ℤ

def EditBuffer.read (d : EditBuffer) (j : ℕ) : Option ℤ := if j < editBufferSize then d j else none

def EditBuffer.write (d : EditBuffer) (j : ℕ) (x : ℤ) : Option EditBuffer :=
  if j < editBufferSize then some (Function.update d j (some x)) else none

/-- `init_edit_buffer(d, len)` -/
def initEditBuffer (d : EditBuffer) : ℕ → Option EditBuffer
  | 0 => some d
  | len + 1 => (initEditBuffer d len).bind fun d => d.write len len

/-- skip the common prefix while the shorter string lasts -/
def skipPrefix : List UInt8 → List UInt8 → List UInt8 × List UInt8
  | x :: maxStr, y :: minStr => if x = y then skipPrefix maxStr minStr else (x :: maxStr, y :: minStr)
  | maxStr, minStr => (maxStr, minStr)

def skipSuffix (maxStr minStr : List UInt8) : List UInt8 × List UInt8 :=
  let r := skipPrefix maxStr.reverse minStr.reverse
  (r.1.reverse, r.2.reverse)

/-- the loop over `j`, for the character `y = min_str[i - 1]` -/
def editRow (y : UInt8) : ℕ → List UInt8 → ℤ → EditBuffer → Option EditBuffer
  | _, [], _, d => some d
  | j, x :: maxStr, prev, d =>
    let sub := prev + if y ≠ x then 1 else 0
    (d.read (j - 1)).bind fun del => (d.read j).bind fun ins =>
      (d.write j (min sub (min del ins + 1))).bind fun d => editRow y (j + 1) maxStr ins d

/-- the loop over `i` -/
def editRows (maxStr : List UInt8) : ℕ → List UInt8 → EditBuffer → Option EditBuffer
  | _, [], d => some d
  | i, y :: minStr, d => (d.write 0 i).bind fun d =>
    (editRow y 1 maxStr (i - 1) d).bind fun d => editRows maxStr (i + 1) minStr d

/-- `edit_distance` from the point where the ends are dropped -/
def editTable (maxStr minStr : List UInt8) : Option ℤ :=
  if minStr = [] then some maxStr.length
  else (initEditBuffer (fun _ => none) (maxStr.length + 1)).bind fun d =>
    (editRows maxStr 1 minStr d).bind fun d => d.read maxStr.length

def editDistance (s1 s2 : List UInt8) : Option ℤ :=
  let (maxStr, minStr) := if s1.length < s2.length then (s2, s1) else (s1, s2)
  let (maxStr, minStr) := skipPrefix maxStr minStr
  let (maxStr, minStr) := skipSuffix maxStr minStr
  editTable maxStr minStr

/-! ## Hamming distance -/

theorem hammingLoop_eq (s1 s2 : List UInt8) (dist : ℤ) : hammingLoop s1 s2 dist = dist + mismatches s1 s2 := by
  induction s1 generalizing s2 dist with
  | nil => simp [hammingLoop, mismatches]
  | cons c1 s1 ih =>
    cases s2 with
    | nil => simp [hammingLoop, mismatches]
    | cons c2 s2 =>
      rw [hammingLoop, ih, mismatches]
      split_ifs <;> grind

theorem hammingDistance_eq {s1 s2 : List UInt8} (h : s1.length = s2.length) :
    hammingDistance s1 s2 = some (mismatches s1 s2 : ℤ) := by
  rw [hammingDistance, if_neg (not_not.2 h), hammingLoop_eq, zero_add]

theorem hammingDistance_none {s1 s2 : List UInt8} (h : s1.length ≠ s2.length) : hammingDistance s1 s2 = none :=
  if_pos h

/-! ## Edit distance -/

section Buffer

variable {d : EditBuffer} {j : ℕ} {x : ℤ}

theorem read_of_lt (h : j < editBufferSize) : d.read j = d j := if_pos h

theorem write_of_lt (h : j < editBufferSize) : d.write j x = some (Function.update d j (some x)) := if_pos h

theorem initEditBuffer_spec (len : ℕ) (h : len ≤ editBufferSize) (d : EditBuffer) :
    ∃ d', initEditBuffer d len = some d' ∧ ∀ j < len, d' j = some (j : ℤ) := by
  induction len with
  | zero => exact ⟨d, rfl, by simp⟩
  | succ len ih =>
    obtain ⟨d', hd', hval⟩ := ih (by omega)
    refine ⟨_, by rw [initEditBuffer, hd', Option.bind_some, write_of_lt h], fun j hj => ?_⟩
    by_cases hlast : j = len
    · rw [hlast, Function.update_self]
    · rw [Function.update_of_ne hlast, hval j (by omega)]

end Buffer

theorem skipPrefix_spec (s t : List UInt8) :
    ∃ p, s = p ++ (skipPrefix s t).1 ∧ t = p ++ (skipPrefix s t).2 := by
  induction s generalizing t with
  | nil => exact ⟨[], by simp [skipPrefix], by simp [skipPrefix]⟩
  | cons x s ih =>
    cases t with
    | nil => exact ⟨[], by simp [skipPrefix], by simp [skipPrefix]⟩
    | cons y t =>
      by_cases hxy : x = y
      · obtain ⟨p, hs, ht⟩ := ih t
        rw [skipPrefix, if_pos hxy]
        exact ⟨x :: p, by rw [List.cons_append, ← hs], by rw [List.cons_append, ← ht, hxy]⟩
      · rw [skipPrefix, if_neg hxy]
        exact ⟨[], rfl, rfl⟩

theorem skipSuffix_spec (s t : List UInt8) :
    ∃ p, s = (skipSuffix s t).1 ++ p ∧ t = (skipSuffix s t).2 ++ p := by
  obtain ⟨p, hs, ht⟩ := skipPrefix_spec s.reverse t.reverse
  refine ⟨p.reverse, ?_, ?_⟩
  · rw [skipSuffix, ← List.reverse_append, ← hs, List.reverse_reverse]
  · rw [skipSuffix, ← List.reverse_append, ← ht, List.reverse_reverse]

theorem lev_skipPrefix (s t : List UInt8) : lev (skipPrefix s t).1 (skipPrefix s t).2 = lev s t := by
  obtain ⟨p, hs, ht⟩ := skipPrefix_spec s t
  calc lev (skipPrefix s t).1 (skipPrefix s t).2
      = lev (p ++ (skipPrefix s t).1) (p ++ (skipPrefix s t).2) := (lev_append_left _ _ _).symm
    _ = lev s t := by rw [← hs, ← ht]

theorem lev_skipSuffix (s t : List UInt8) : lev (skipSuffix s t).1 (skipSuffix s t).2 = lev s t := by
  obtain ⟨p, hs, ht⟩ := skipSuffix_spec s t
  calc lev (skipSuffix s t).1 (skipSuffix s t).2
      = lev ((skipSuffix s t).1 ++ p) ((skipSuffix s t).2 ++ p) := (lev_append_right _ _ _).symm
    _ = lev s t := by rw [← hs, ← ht]

/-- the buffer holds the row of `ys` for every prefix of `xs` -/
def RowOf (ys xs : List UInt8) (d : EditBuffer) : Prop := ∀ p, p <+: xs → d p.length = some (lev ys p : ℤ)

/-- one row: to the left of `j` the new row, from `j` on the old one -/
theorem editRow_spec {ys : List UInt8} {y : UInt8} {xs : List UInt8} {done : List UInt8} {d : EditBuffer} {prev : ℤ}
    (hlen : (done ++ xs).length < editBufferSize) (hprev : prev = lev ys done) (hleft : RowOf (ys ++ [y]) done d)
    (hright : ∀ p, p <+: xs → p ≠ [] → d (done ++ p).length = some (lev ys (done ++ p) : ℤ)) :
    ∃ d', editRow y (done.length + 1) xs prev d = some d' ∧ RowOf (ys ++ [y]) (done ++ xs) d' := by
  induction xs generalizing done d prev with
  | nil => exact ⟨d, rfl, by simpa using hleft⟩
  | cons x xs ih =>
    have hj : done.length + 1 < editBufferSize := by
      simp only [List.length_append, List.length_cons] at hlen
      omega
    have hdel : d.read done.length = some (lev (ys ++ [y]) done : ℤ) := by
      rw [read_of_lt (by omega), hleft done (List.prefix_refl done)]
    have hins : d.read (done.length + 1) = some (lev ys (done ++ [x]) : ℤ) := by
      have := hright [x] (by simp) (by simp)
      rw [List.length_append, List.length_singleton] at this
      rw [read_of_lt hj, this]
    have hnew : min (prev + if y ≠ x then 1 else 0) (min (lev (ys ++ [y]) done : ℤ) (lev ys (done ++ [x])) + 1) =
        (lev (ys ++ [y]) (done ++ [x]) : ℤ) := by
      rw [lev_snoc, hprev, min_comm (lev ys (done ++ [x]))]
      split_ifs <;> first | omega | simp_all
    have hleft' : RowOf (ys ++ [y]) (done ++ [x])
        (Function.update d (done.length + 1) (some (lev (ys ++ [y]) (done ++ [x]) : ℤ))) := by
      intro p hp
      rcases List.prefix_concat_iff.1 hp with hp | hp
      · rw [hp, List.length_append, List.length_singleton, Function.update_self]
      · have := hp.length_le
        rw [Function.update_of_ne (by omega), hleft p hp]
    have hright' : ∀ p, p <+: xs → p ≠ [] →
        Function.update d (done.length + 1) (some (lev (ys ++ [y]) (done ++ [x]) : ℤ)) (done ++ [x] ++ p).length =
          some (lev ys (done ++ [x] ++ p) : ℤ) := by
      intro p hp hne
      have hpos := List.length_pos_of_ne_nil hne
      rw [Function.update_of_ne (by simp only [List.length_append, List.length_singleton]; omega)]
      simpa using hright (x :: p) (List.cons_prefix_cons.2 ⟨rfl, hp⟩) (by simp)
    obtain ⟨d', hd', hrow⟩ := ih (by simpa using hlen) rfl hleft' hright'
    refine ⟨d', ?_, by simpa using hrow⟩
    rw [editRow, Nat.add_sub_cancel, hdel, hins, Option.bind_some, Option.bind_some, hnew, write_of_lt hj,
      Option.bind_some, ← hd', List.length_append, List.length_singleton]

/-- all rows, from the row of `done` -/
theorem editRows_spec (ys : List UInt8) {xs done : List UInt8} {d : EditBuffer} (hlen : xs.length < editBufferSize)
    (hrow : RowOf done xs d) :
    ∃ d', editRows xs (done.length + 1) ys d = some d' ∧ RowOf (done ++ ys) xs d' := by
  induction ys generalizing done d with
  | nil => exact ⟨d, rfl, by simpa using hrow⟩
  | cons y ys ih =>
    have hzero : 0 < editBufferSize := by omega
    set d₀ := Function.update d 0 (some (done.length + 1 : ℤ)) with hd₀
    have hleft : RowOf (done ++ [y]) [] d₀ := by
      intro p hp
      rw [List.prefix_nil.1 hp]
      simp [hd₀]
    have hright : ∀ p, p <+: xs → p ≠ [] → d₀ ([] ++ p).length = some (lev done ([] ++ p) : ℤ) := by
      intro p hp hne
      have hpos := List.length_pos_of_ne_nil hne
      rw [List.nil_append, hd₀, Function.update_of_ne (by omega), hrow p hp]
    have hprev : (done.length : ℤ) = lev done [] := by rw [lev_nil_right]
    obtain ⟨d₁, hd₁, hrow₁⟩ := editRow_spec (by simpa using hlen) hprev hleft hright
    obtain ⟨d₂, hd₂, hrow₂⟩ := ih hrow₁
    refine ⟨d₂, ?_, by simpa using hrow₂⟩
    rw [editRows, write_of_lt hzero, Option.bind_some]
    push_cast
    rw [add_sub_cancel_right]
    simp only [List.length_nil, zero_add] at hd₁
    rw [hd₁, Option.bind_some]
    simpa using hd₂

theorem editTable_eq {maxStr minStr : List UInt8} (h : maxStr.length < editBufferSize) :
    editTable maxStr minStr = some (lev minStr maxStr : ℤ) := by
  by_cases hmin : minStr = []
  · rw [editTable, if_pos hmin, hmin, lev_nil_left]
  · obtain ⟨d, hd, hval⟩ := initEditBuffer_spec (maxStr.length + 1) h fun _ => none
    have hrow : RowOf [] maxStr d := by
      intro p hp
      rw [hval _ (by have := hp.length_le; omega), lev_nil_left]
    obtain ⟨d', hd', hrow'⟩ := editRows_spec minStr h hrow
    rw [editTable, if_neg hmin, hd, Option.bind_some]
    simp only [List.length_nil, zero_add] at hd'
    rw [hd', Option.bind_some, read_of_lt h, hrow' maxStr (List.prefix_refl maxStr), List.nil_append]

/-- what is left of the longer word once the common ends are dropped -/
def editRest (s1 s2 : List UInt8) : List UInt8 :=
  let (maxStr, minStr) := if s1.length < s2.length then (s2, s1) else (s1, s2)
  let (maxStr, minStr) := skipPrefix maxStr minStr
  (skipSuffix maxStr minStr).1

/-- **The edit distance.** While the row fits the buffer, `edit_distance` is defined and is the Levenshtein distance. -/
theorem editDistance_eq {s1 s2 : List UInt8} (h : (editRest s1 s2).length < editBufferSize) :
    editDistance s1 s2 = some (lev s1 s2 : ℤ) := by
  have hcore : ∀ s t : List UInt8, (skipSuffix (skipPrefix s t).1 (skipPrefix s t).2).1.length < editBufferSize →
      editTable (skipSuffix (skipPrefix s t).1 (skipPrefix s t).2).1 (skipSuffix (skipPrefix s t).1 (skipPrefix s t).2).2 =
        some (lev s t : ℤ) := by
    intro s t hst
    rw [editTable_eq hst, lev_comm, lev_skipSuffix, lev_skipPrefix]
  by_cases hlt : s1.length < s2.length
  · simp only [editRest, editDistance, if_pos hlt] at h ⊢
    rw [hcore s2 s1 h, lev_comm]
  · simp only [editRest, editDistance, if_neg hlt] at h ⊢
    exact hcore s1 s2 h

theorem editRest_length_le (s1 s2 : List UInt8) : (editRest s1 s2).length ≤ max s1.length s2.length := by
  have hcore : ∀ s t : List UInt8, (skipSuffix (skipPrefix s t).1 (skipPrefix s t).2).1.length ≤ s.length := by
    intro s t
    obtain ⟨p, hs, -⟩ := skipPrefix_spec s t
    obtain ⟨q, hs', -⟩ := skipSuffix_spec (skipPrefix s t).1 (skipPrefix s t).2
    have h1 := congrArg List.length hs
    have h2 := congrArg List.length hs'
    rw [List.length_append] at h1 h2
    omega
  by_cases hlt : s1.length < s2.length
  · simp only [editRest, if_pos hlt]
    exact (hcore s2 s1).trans (le_max_right _ _)
  · simp only [editRest, if_neg hlt]
    exact (hcore s1 s2).trans (le_max_left _ _)

/-- the words of the interface are short enough -/
theorem editDistance_words {s1 s2 : List UInt8} (h1 : s1.length ≤ maxWordLength) (h2 : s2.length ≤ maxWordLength) :
    editDistance s1 s2 = some (lev s1 s2 : ℤ) := by
  apply editDistance_eq
  have := editRest_length_le s1 s2
  simp only [editBufferSize, maxWordLength] at *
  omega

/-! ## Metrics -/

/-- on the words of one length, `hamming_distance` is a metric -/
theorem hamming_metric (n : ℕ) :
    MetricOn {w : List UInt8 | w.length = n} hammingDistance fun a b => (mismatches a b : ℤ) where
  defined a ha b hb := hammingDistance_eq (ha.trans hb.symm)
  nonneg a _ b _ := Int.natCast_nonneg _
  eq_zero a ha b hb := by rw [Int.natCast_eq_zero, mismatches_eq_zero (ha.trans hb.symm)]
  symm a _ b _ := by rw [mismatches_comm]
  triangle a ha b hb c hc := by
    exact_mod_cast mismatches_triangle (ha.trans hb.symm) (hb.trans hc.symm)

/-- on the words of the interface, `edit_distance` is a metric -/
theorem edit_metric :
    MetricOn {w : List UInt8 | w.length ≤ maxWordLength} editDistance fun a b => (lev a b : ℤ) where
  defined a ha b hb := editDistance_words ha hb
  nonneg a _ b _ := Int.natCast_nonneg _
  eq_zero a _ b _ := by rw [Int.natCast_eq_zero, lev_eq_zero]
  symm a _ b _ := by rw [lev_comm]
  triangle a _ b _ c _ := by exact_mod_cast lev_triangle a b c

end K23Search.Text
