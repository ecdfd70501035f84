/-
`qs::binary_search` (include/qs/search.hpp). Its bounds are `int`s, and it computes the midpoint as
`(left + right) / 2`. Arithmetic that is no `int`, and a read outside the array, are `none`.

As long as every comparison sends the loop to the right, the window ends at the end of the array; it starts at
`n - n / 2 ^ k` after `k` rounds. Once the loop goes to the left, `right` is below half of an `int` for good. So the
windows of the first kind are the only ones whose sum can overflow.

Results:
- `searchLoop_step`: one round halves a window and keeps `Window`;
- `searchLoop_low`: the search of a window in the lower half of the `int`s;
- `binarySearch_iff`: when the search of a sorted array is defined and right.
-/
import K23Search.Lib.SortedWindow
import Mathlib.Algebra.Group.Int.Defs
import Mathlib.Algebra.GroupWithZero.Nat
import Mathlib.Data.Nat.Basic

namespace K23Search.BinarySearch

open K23Search.Lib

variable {T : Type}

/-! ## Model -/

/-- `z` fits into an `int` -/
def IsInt (z : ℤ) : Prop := -2 ^ 31 ≤ z ∧ z < 2 ^ 31

instance (z : ℤ) : Decidable (IsInt z) := inferInstanceAs (Decidable (_ ∧ _))

/-- `data[i]` -/
def element (data : List T) (i : ℤ) : Option T := if i < 0 then none else data[i.toNat]?

theorem midpoint_bounds {left right : ℤ} (h : left ≤ right) :
    left ≤ (left + right).tdiv 2 ∧ (left + right).tdiv 2 ≤ right := by
  rw [Int.tdiv_eq_ediv]
  split
  · omega
  · have hsign : Int.sign 2 = 1 := rfl
    rw [hsign]
    omega

theorem element_natCast (data : List T) (m : ℕ) : element data m = data[m]? := by
  rw [element, if_neg (by omega), Int.toNat_natCast]

variable [LinearOrder T]

/-- the loop of `binary_search` -/
def searchLoop (data : List T) (searchElem : T) (left right : ℤ) : Option ℤ :=
  if h : left ≤ right then
    if IsInt (left + right) then
      let middle := (left + right).tdiv 2
      match element data middle with
      | none => none
      | some e =>
        if e < searchElem then
          if IsInt (middle + 1) then searchLoop data searchElem (middle + 1) right else none
        else if e > searchElem then
          if IsInt (middle - 1) then searchLoop data searchElem left (middle - 1) else none
        else some middle
    else none
  else some (-1)
termination_by (right + 1 - left).toNat
decreasing_by
  · have := midpoint_bounds h
    omega
  · have := midpoint_bounds h
    omega

def binarySearch (data : List T) (size : ℕ) (searchElem : T) : Option ℤ :=
  let right := Int.bmod size (2 ^ 32) - 1
  if IsInt right then searchLoop data searchElem 0 right else none

/-- an index of the element, or -1 if there is none -/
def Finds (data : List T) (searchElem : T) (r : ℤ) : Prop :=
  (0 ≤ r ∧ element data r = some searchElem) ∨ (r = -1 ∧ searchElem ∉ data)

/-- the search returns, and finds the element -/
def Searches (data : List T) (searchElem : T) : Prop :=
  ∃ r, binarySearch data data.length searchElem = some r ∧ Finds data searchElem r

/-! ## One round -/

variable {data : List T} {x e : T} {left stop m : ℕ}

theorem searchLoop_empty (data : List T) (x : T) (left : ℕ) : searchLoop data x left (left - 1) = some (-1) := by
  rw [searchLoop, dif_neg (by omega)]

theorem searchLoop_overflow (data : List T) (x : T) (hlt : left < stop) (hsum : 2 ^ 31 < left + stop) :
    searchLoop data x left (stop - 1) = none := by
  rw [searchLoop, dif_pos (by omega), if_neg]
  intro hint
  have := hint.2
  omega

theorem searchLoop_step (hlt : left < stop) (hsum : left + stop ≤ 2 ^ 31) (hm : m = (left + stop - 1) / 2)
    (he : data[m]? = some e) :
    searchLoop data x left (stop - 1) =
      if e < x then searchLoop data x (m + 1 : ℕ) (stop - 1)
      else if e > x then searchLoop data x left (m - 1)
      else some m := by
  have hmid : ((left : ℤ) + (stop - 1)).tdiv 2 = m := by
    rw [Int.tdiv_eq_ediv_of_nonneg (by omega)]
    omega
  rw [searchLoop, dif_pos (by omega), if_pos ⟨by omega, by omega⟩]
  simp only [hmid, element_natCast, he]
  have hup : IsInt ((m : ℤ) + 1) := ⟨by omega, by omega⟩
  have hdown : IsInt ((m : ℤ) - 1) := ⟨by omega, by omega⟩
  rw [if_pos hup, if_pos hdown, Int.natCast_succ]

/-! ## Windows -/

/-- the search of a window in the lower half of the `int`s -/
theorem searchLoop_low (hs : data.Pairwise (· ≤ ·)) (hw : Window data x left stop) (hlow : 2 * stop ≤ 2 ^ 31) :
    ∃ r, searchLoop data x left (stop - 1) = some r ∧ Finds data x r := by
  induction hn : stop - left using Nat.strongRecOn generalizing left stop with
  | _ n ih =>
    rcases Nat.eq_or_lt_of_le hw.ordered with rfl | hlt
    · exact ⟨-1, searchLoop_empty data x left, Or.inr ⟨rfl, hw.not_mem⟩⟩
    · obtain ⟨m, hm⟩ : ∃ m, m = (left + stop - 1) / 2 := ⟨_, rfl⟩
      have hms : m < stop := by omega
      have he := List.getElem?_eq_getElem (Nat.lt_of_lt_of_le hms hw.bounded)
      rw [searchLoop_step hlt (by omega) hm he]
      split
      · next hless => exact ih _ (by omega) (hw.raise hs hms he hless) hlow rfl
      · next hless =>
        split
        · next hgreater => exact ih _ (by omega) (hw.lower hs (by omega) hms he hgreater) (by omega) rfl
        · next hgreater =>
          refine ⟨m, rfl, Or.inl ⟨by omega, ?_⟩⟩
          rw [element_natCast, he, le_antisymm (not_lt.1 hgreater) (not_lt.1 hless)]

/-- after `k` rounds to the right the window starts here -/
def leftAfter (n k : ℕ) : ℕ := n - n / 2 ^ k

/-- the sum of the bounds is no `int` after `k` rounds to the right -/
def Overflows (n k : ℕ) : Prop := leftAfter n k < n ∧ 2 ^ 31 < leftAfter n k + n

theorem leftAfter_succ (n k : ℕ) (h : leftAfter n k < n) :
    leftAfter n (k + 1) = (leftAfter n k + n - 1) / 2 + 1 ∧ leftAfter n k < leftAfter n (k + 1) := by
  have hhalf : n / 2 ^ (k + 1) = n / 2 ^ k / 2 := by rw [pow_succ, Nat.div_div_eq_div_mul]
  have hle : n / 2 ^ k ≤ n := Nat.div_le_self _ _
  simp only [leftAfter, hhalf] at h ⊢
  omega

theorem leftAfter_mono (n : ℕ) {j k : ℕ} (h : j ≤ k) : leftAfter n j ≤ leftAfter n k :=
  Nat.sub_le_sub_left (Nat.div_le_div_left (Nat.pow_le_pow_right (by omega) h) (Nat.pow_pos (by omega))) n

/-- the search of a window that ends at the end of the array -/
theorem searchLoop_high (hs : data.Pairwise (· ≤ ·)) {n k : ℕ} (hn : data.length = n)
    (hw : Window data x (leftAfter n k) n) :
    (∃ r, searchLoop data x (leftAfter n k) (n - 1) = some r ∧ Finds data x r) ↔
      ∀ j, k ≤ j → Overflows n j → ¬Below data x (leftAfter n j) := by
  induction hd : n - leftAfter n k using Nat.strongRecOn generalizing k with
  | _ d ih =>
    rcases Nat.eq_or_lt_of_le hw.ordered with heq | hlt
    · refine iff_of_true ?_ fun j hkj hover => ?_
      · rw [heq]
        rw [heq] at hw
        exact ⟨-1, searchLoop_empty data x n, Or.inr ⟨rfl, hw.not_mem⟩⟩
      · have := leftAfter_mono n hkj
        have := hover.1
        omega
    · by_cases hsum : 2 ^ 31 < leftAfter n k + n
      · refine iff_of_false ?_ fun h => h k (Nat.le_refl k) ⟨hlt, hsum⟩ hw.below
        rw [searchLoop_overflow data x hlt hsum]
        exact fun ⟨r, hr, _⟩ => absurd hr nofun
      · obtain ⟨m, hm⟩ : ∃ m, m = (leftAfter n k + n - 1) / 2 := ⟨_, rfl⟩
        obtain ⟨hnext, hgrow⟩ := leftAfter_succ n k hlt
        rw [← hm] at hnext
        have hmn : m < n := by omega
        have he := List.getElem?_eq_getElem (Nat.lt_of_lt_of_le hmn hw.bounded)
        -- the rounds to the right that are still to come pass `m`
        have hlater : ∀ j, k ≤ j → Overflows n j → leftAfter n (k + 1) ≤ leftAfter n j := by
          intro j hkj hover
          rcases Nat.eq_or_lt_of_le hkj with rfl | hkj
          · exact absurd hover.2 hsum
          · exact leftAfter_mono n hkj
        have hstay : ¬data[m] < x → ∀ j, k ≤ j → Overflows n j → ¬Below data x (leftAfter n j) := by
          intro hless j hkj hover hbelow
          have hpass := hbelow.mono (hlater j hkj hover)
          rw [hnext] at hpass
          exact hless ((below_succ_iff hs he).1 hpass)
        rw [searchLoop_step hlt (by omega) hm he]
        split
        · next hless =>
          have hw' := hw.raise hs hmn he hless
          rw [← hnext] at hw' ⊢
          rw [ih _ (by omega) hw' rfl]
          constructor
          · intro h j hkj hover
            rcases Nat.eq_or_lt_of_le hkj with rfl | hkj
            · exact absurd hover.2 hsum
            · exact h j hkj hover
          · intro h j hkj
            exact h j (Nat.le_of_succ_le hkj)
        · next hless =>
          refine iff_of_true ?_ (hstay hless)
          split
          · next hgreater => exact searchLoop_low hs (hw.lower hs (by omega) hmn he hgreater) (by omega)
          · next hgreater =>
            refine ⟨m, rfl, Or.inl ⟨by omega, ?_⟩⟩
            rw [element_natCast, he, le_antisymm (not_lt.1 hgreater) (not_lt.1 hless)]

/-! ## The search -/

theorem binarySearch_eq (data : List T) (x : T) (hlen : data.length < 2 ^ 31) :
    binarySearch data data.length x = searchLoop data x (leftAfter data.length 0) (data.length - 1) := by
  have hsize : Int.bmod data.length (2 ^ 32) = data.length := Int.bmod_eq_of_le_mul_two (by omega) (by omega)
  have hright : IsInt ((data.length : ℤ) - 1) := ⟨by omega, by omega⟩
  have hleft : leftAfter data.length 0 = 0 := by rw [leftAfter, pow_zero, Nat.div_one, Nat.sub_self]
  simp only [binarySearch, hsize, if_pos hright, hleft]
  rfl

theorem searches_high (hs : data.Pairwise (· ≤ ·)) (hlen : data.length < 2 ^ 31) :
    Searches data x ↔ ∀ k, Overflows data.length k → ¬Below data x (leftAfter data.length k) := by
  have hw : Window data x (leftAfter data.length 0) data.length := by
    have hleft : leftAfter data.length 0 = 0 := by rw [leftAfter, pow_zero, Nat.div_one, Nat.sub_self]
    rw [hleft]
    exact window_all data x
  rw [Searches, binarySearch_eq data x hlen, searchLoop_high hs rfl hw]
  exact ⟨fun h k => h k (Nat.zero_le k), fun h k _ => h k⟩

/-- no sum overflows in an array of at most `2 ^ 30` elements -/
theorem searches_of_length_le (hs : data.Pairwise (· ≤ ·)) (hlen : data.length ≤ 2 ^ 30) : Searches data x := by
  rw [searches_high hs (by omega)]
  intro k hover
  obtain ⟨hlt, hsum⟩ := hover
  omega

/-- **Search.** In a sorted array the search is defined and right exactly when no element less than `x` is the last one
before a window that ends at the end of the array and has bounds whose sum is no `int`. -/
theorem binarySearch_iff (data : List T) (x : T) (hs : data.Pairwise (· ≤ ·)) (hlen : data.length < 2 ^ 31) :
    Searches data x ↔
      ∀ k, Overflows data.length k → ∀ e, data[leftAfter data.length k - 1]? = some e → x ≤ e := by
  rw [searches_high hs hlen]
  refine forall₂_congr fun k hover => ?_
  have hle : leftAfter data.length k ≤ data.length := Nat.sub_le _ _
  obtain ⟨hlt, hsum⟩ := hover
  obtain ⟨m, hm⟩ : ∃ m, leftAfter data.length k = m + 1 := ⟨leftAfter data.length k - 1, by omega⟩
  have he := List.getElem?_eq_getElem (l := data) (i := m) (by omega)
  rw [hm, Nat.add_sub_cancel, below_succ_iff hs he, not_lt, he]
  exact ⟨fun h e heq => Option.some.inj heq ▸ h, fun h => h _ rfl⟩

theorem binarySearch_three :
    [1, 3, 5].Pairwise (· ≤ ·) ∧ [1, 3, 5].length < 2 ^ 31 ∧
      (Searches [1, 3, 5] 3 ↔ ∀ k, Overflows [1, 3, 5].length k →
        ∀ e, [1, 3, 5][leftAfter [1, 3, 5].length k - 1]? = some e → 3 ≤ e) :=
  ⟨by decide, by decide, binarySearch_iff [1, 3, 5] 3 (by decide) (by decide)⟩

/-- zeros in an array of `2 ^ 31 - 1` elements: after the first round the sum of the bounds is `3 * 2 ^ 30 - 2` -/
theorem search_right_half : ¬Searches (List.replicate (2 ^ 31 - 1) 0) 1 := by
  have hlen : (List.replicate (2 ^ 31 - 1) 0).length = 2 ^ 31 - 1 := List.length_replicate
  rw [searches_high (List.pairwise_replicate.2 (Or.inr (Nat.le_refl 0))) (by rw [hlen]; omega), hlen]
  intro h
  refine h 1 ?_ ?_
  · rw [Overflows, leftAfter]
    omega
  · intro i e _ he
    rw [List.eq_of_mem_replicate (List.mem_of_getElem? he)]
    exact Nat.zero_lt_one

end K23Search.BinarySearch
