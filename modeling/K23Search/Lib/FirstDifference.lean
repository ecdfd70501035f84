/-
Comparison of two lists at their first difference. The comparison looks no further than the shorter list: `firstDiff` is
`eq` when there is no difference up to there.

- `firstDiff_trans`: less at the first difference is transitive;
- `firstDiff_eq_iff`: no difference means that one list is a prefix of the other.
-/
import Mathlib.Data.List.Basic
import Mathlib.Order.Compare

namespace K23Search.Lib

variable {α : Type*} [LinearOrder α]

/-- the order of the first two elements that differ; `eq` if one list ends before -/
def firstDiff : List α → List α → Ordering
  | x :: xs, y :: ys => (compare x y).then (firstDiff xs ys)
  | _, _ => .eq

@[simp] theorem firstDiff_nil_left (ys : List α) : firstDiff [] ys = .eq := by
  cases ys <;> rfl

@[simp] theorem firstDiff_nil_right (xs : List α) : firstDiff xs [] = .eq := by
  cases xs <;> rfl

theorem firstDiff_self_cons (x : α) (xs ys : List α) :
    firstDiff (x :: xs) (x :: ys) = firstDiff xs ys := by
  rw [firstDiff, compare_eq_iff_eq.2 rfl]
  rfl

theorem firstDiff_trans {xs ys zs : List α} (hxy : firstDiff xs ys = .lt) (hyz : firstDiff ys zs = .lt) :
    firstDiff xs zs = .lt := by
  induction xs generalizing ys zs with
  | nil => simp at hxy
  | cons x xs ih =>
    cases ys with
    | nil => simp at hxy
    | cons y ys =>
      cases zs with
      | nil => simp at hyz
      | cons z zs =>
        rw [firstDiff, Ordering.then_eq_lt, compare_lt_iff_lt, compare_eq_iff_eq] at hxy hyz ⊢
        rcases hxy with hxy | ⟨rfl, hxy⟩
        · rcases hyz with hyz | ⟨rfl, -⟩
          · exact .inl (hxy.trans hyz)
          · exact .inl hxy
        · rcases hyz with hyz | ⟨rfl, hyz⟩
          · exact .inl hyz
          · exact .inr ⟨rfl, ih hxy hyz⟩

theorem firstDiff_eq_iff {xs ys : List α} : firstDiff xs ys = .eq ↔ xs <+: ys ∨ ys <+: xs := by
  induction xs generalizing ys with
  | nil => simp
  | cons x xs ih =>
    cases ys with
    | nil => simp
    | cons y ys =>
      rw [firstDiff, Ordering.then_eq_eq, compare_eq_iff_eq, ih, List.cons_prefix_cons, List.cons_prefix_cons]
      constructor
      · intro h
        obtain ⟨rfl, h⟩ := h
        exact h.imp (fun h => ⟨rfl, h⟩) (fun h => ⟨rfl, h⟩)
      · intro h
        rcases h with ⟨rfl, h⟩ | ⟨rfl, h⟩
        · exact ⟨rfl, .inl h⟩
        · exact ⟨rfl, .inr h⟩

theorem firstDiff_self (xs : List α) : firstDiff xs xs = .eq := firstDiff_eq_iff.2 (.inl (List.prefix_refl xs))

end K23Search.Lib
