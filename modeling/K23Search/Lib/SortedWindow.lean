/-
Windows of a sorted list, for searches that narrow one down: the elements before a window are less than the element
searched for, those behind it greater.

- `window_all`: the whole list is a window;
- `Window.raise`, `Window.lower`: a comparison with an element of the window moves one end of it;
- `Window.not_mem`: nothing is left to search in an empty window.
-/
import Mathlib.Data.List.Basic
import Mathlib.Order.Lattice

namespace K23Search.Lib

variable {α : Type*} [LinearOrder α]

/-- the first `m` elements are less than `x` -/
def Below (data : List α) (x : α) (m : ℕ) : Prop := ∀ i e, i < m → data[i]? = some e → e < x

/-- the elements from `left` to `stop` remain -/
structure Window (data : List α) (x : α) (left stop : ℕ) : Prop where
  ordered : left ≤ stop
  bounded : stop ≤ data.length
  below : Below data x left
  above : ∀ i e, stop ≤ i → data[i]? = some e → x < e

variable {data : List α} {x e : α} {left stop m : ℕ}

theorem window_all (data : List α) (x : α) : Window data x 0 data.length where
  ordered := Nat.zero_le _
  bounded := Nat.le_refl _
  below := fun i e hi => absurd hi (Nat.not_lt_zero i)
  above := fun i e hi he => by
    rw [List.getElem?_eq_none hi] at he
    cases he

theorem sorted_le (hs : data.Pairwise (· ≤ ·)) {i j : ℕ} {a b : α} (hij : i ≤ j) (ha : data[i]? = some a)
    (hb : data[j]? = some b) : a ≤ b := by
  obtain ⟨hi, rfl⟩ := List.getElem?_eq_some_iff.1 ha
  obtain ⟨hj, rfl⟩ := List.getElem?_eq_some_iff.1 hb
  rcases Nat.eq_or_lt_of_le hij with rfl | hlt
  · exact le_refl _
  · exact List.pairwise_iff_getElem.1 hs i j hi hj hlt

/-- an element decides for all before it -/
theorem below_succ_iff (hs : data.Pairwise (· ≤ ·)) (he : data[m]? = some e) : Below data x (m + 1) ↔ e < x := by
  constructor
  · intro h
    exact h m e (Nat.lt_succ_self m) he
  · intro hlt i a hi ha
    exact lt_of_le_of_lt (sorted_le hs (Nat.lt_succ_iff.1 hi) ha he) hlt

theorem Below.mono {m' : ℕ} (h : Below data x m) (hle : m' ≤ m) : Below data x m' :=
  fun i e hi he => h i e (Nat.lt_of_lt_of_le hi hle) he

theorem Window.raise (h : Window data x left stop) (hs : data.Pairwise (· ≤ ·)) (hm : m < stop)
    (he : data[m]? = some e) (hlt : e < x) : Window data x (m + 1) stop where
  ordered := hm
  bounded := h.bounded
  below := (below_succ_iff hs he).2 hlt
  above := h.above

theorem Window.lower (h : Window data x left stop) (hs : data.Pairwise (· ≤ ·)) (hl : left ≤ m) (hm : m < stop)
    (he : data[m]? = some e) (hgt : x < e) : Window data x left m where
  ordered := hl
  bounded := Nat.le_trans (Nat.le_of_lt hm) h.bounded
  below := h.below
  above := fun _ _ hi ha => lt_of_lt_of_le hgt (sorted_le hs hi he ha)

theorem Window.not_mem (h : Window data x left left) : x ∉ data := by
  intro hx
  obtain ⟨i, hi⟩ := List.getElem?_of_mem hx
  rcases Nat.lt_or_ge i left with hlt | hge
  · exact lt_irrefl x (h.below i x hlt hi)
  · exact lt_irrefl x (h.above i x hge hi)

end K23Search.Lib
