/-
Sequences kept in a ring of `cap` cells: the element at offset `i` from `head` is in the cell `(head + i) % cap`.

- `offset_inj`: distinct offsets below `cap` are distinct cells;
- `OnRing.push`: writing the cell behind the last element appends, if there is a free cell;
- `OnRing.first`, `OnRing.rest`: the cell at `head` is the first element, and the others follow from the next cell on.
-/
import Mathlib.Data.List.Basic
import Mathlib.Data.Nat.ModEq
import Mathlib.Logic.Function.Basic

namespace K23Search.Lib

variable {α : Type*} {cells : ℕ → Option α} {cap head : ℕ} {x : α} {xs : List α}

/-- the cells from `head` on hold `xs` -/
def OnRing (cells : ℕ → Option α) (cap head : ℕ) (xs : List α) : Prop :=
  ∀ i y, xs[i]? = some y → cells ((head + i) % cap) = some y

theorem ring_nil (cells : ℕ → Option α) (cap head : ℕ) : OnRing cells cap head [] := by
  intro i y h
  simp at h

theorem offset_inj {i j : ℕ} (hi : i < cap) (hj : j < cap) (h : (head + i) % cap = (head + j) % cap) : i = j := by
  have hmod : i ≡ j [MOD cap] := Nat.ModEq.add_left_cancel' head h
  exact Nat.ModEq.eq_of_lt_of_lt hmod hi hj

/-- the cell next to the one at offset `i` -/
theorem offset_succ (cap head i : ℕ) : ((head + i) % cap + 1) % cap = (head + (i + 1)) % cap := by
  rw [Nat.mod_add_mod, Nat.add_assoc]

theorem OnRing.push (h : OnRing cells cap head xs) (hlen : xs.length < cap) (x : α) :
    OnRing (Function.update cells ((head + xs.length) % cap) (some x)) cap head (xs ++ [x]) := by
  intro i y hy
  by_cases hi : i < xs.length
  · rw [List.getElem?_append_left hi] at hy
    have hne : (head + i) % cap ≠ (head + xs.length) % cap := by
      intro heq
      have := offset_inj (by omega) hlen heq
      omega
    rw [Function.update_of_ne hne]
    exact h i y hy
  · obtain ⟨hlt, -⟩ := List.getElem?_eq_some_iff.1 hy
    obtain rfl : i = xs.length := by
      rw [List.length_append, List.length_singleton] at hlt
      omega
    rw [List.getElem?_concat_length] at hy
    rw [Function.update_self, hy]

theorem OnRing.first (h : OnRing cells cap head (x :: xs)) : cells (head % cap) = some x := h 0 x rfl

theorem OnRing.rest (h : OnRing cells cap head (x :: xs)) : OnRing cells cap ((head + 1) % cap) xs := by
  intro i y hy
  have hcell := h (i + 1) y hy
  rw [Nat.mod_add_mod, Nat.add_assoc, Nat.add_comm 1 i]
  exact hcell

/-- a ring of fewer than `cap` elements is empty exactly when the cell behind its last element is the one of its
first -/
theorem ring_empty_iff (hhead : head < cap) (hlen : xs.length < cap) : (head + xs.length) % cap = head ↔ xs = [] := by
  constructor
  · intro h
    have h0 : (head + xs.length) % cap = (head + 0) % cap := by rw [h, Nat.add_zero, Nat.mod_eq_of_lt hhead]
    exact List.length_eq_zero_iff.1 (offset_inj hlen (by omega) h0)
  · intro h
    rw [h, List.length_nil, Nat.add_zero, Nat.mod_eq_of_lt hhead]

/-- and it has one free cell left exactly when the next cell is the one of its first element -/
theorem ring_full_iff (hhead : head < cap) (hlen : xs.length < cap) :
    ((head + xs.length) % cap + 1) % cap = head ↔ xs.length + 1 = cap := by
  rw [offset_succ]
  constructor
  · intro h
    by_contra hne
    have h0 : (head + (xs.length + 1)) % cap = (head + 0) % cap := by rw [h, Nat.add_zero, Nat.mod_eq_of_lt hhead]
    have := offset_inj (by omega) (by omega) h0
    omega
  · intro h
    rw [h, Nat.add_mod_right, Nat.mod_eq_of_lt hhead]

end K23Search.Lib
