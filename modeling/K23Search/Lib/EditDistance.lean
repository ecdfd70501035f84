/-
Edit distance and mismatch counts on lists.

- `Align s t n`: an alignment of `s` and `t` with `n` insertions, deletions and substitutions. Alignments append, turn
  round and compose;
- `lev`: the Levenshtein distance by recursion on both lists; `align_lev` and `lev_le`: it is the least cost of an
  alignment. The metric laws (`lev_eq_zero`, `lev_comm`, `lev_triangle`) and the rules for common ends
  (`lev_append_left`, `lev_append_right`, `lev_snoc`) follow from that;
- `mismatches`: the number of positions at which two lists differ, with the same laws on lists of one length.
-/
import Mathlib.Data.List.Basic
import Mathlib.Order.MinMax

namespace K23Search.Lib

variable {α : Type*}

/-! ## Alignments -/

inductive Align : List α → List α → ℕ → Prop
  | nil : Align [] [] 0
  | keep (a : α) {s t : List α} {n : ℕ} (h : Align s t n) : Align (a :: s) (a :: t) n
  | subst (a b : α) {s t : List α} {n : ℕ} (h : Align s t n) : Align (a :: s) (b :: t) (n + 1)
  | del (a : α) {s t : List α} {n : ℕ} (h : Align s t n) : Align (a :: s) t (n + 1)
  | ins (b : α) {s t : List α} {n : ℕ} (h : Align s t n) : Align s (b :: t) (n + 1)

namespace Align

variable {s t u s' t' : List α} {m n : ℕ}

theorem refl (s : List α) : Align s s 0 := by
  induction s with
  | nil => exact nil
  | cons a s ih => exact keep a ih

theorem dels (s : List α) : Align s [] s.length := by
  induction s with
  | nil => exact nil
  | cons a s ih => exact del a ih

theorem symm (h : Align s t n) : Align t s n := by
  induction h with
  | nil => exact nil
  | keep a _ ih => exact keep a ih
  | subst a b _ ih => exact subst b a ih
  | del a _ ih => exact ins a ih
  | ins b _ ih => exact del b ih

theorem append (h : Align s t m) (h' : Align s' t' n) : Align (s ++ s') (t ++ t') (m + n) := by
  induction h with
  | nil => simpa using h'
  | keep a _ ih => exact keep a ih
  | subst a b _ ih => rw [Nat.add_right_comm]; exact subst a b ih
  | del a _ ih => rw [Nat.add_right_comm]; exact del a ih
  | ins b _ ih => rw [Nat.add_right_comm]; exact ins b ih

theorem reverse (h : Align s t n) : Align s.reverse t.reverse n := by
  induction h with
  | nil => exact nil
  | keep a _ ih => simpa using ih.append (keep a nil)
  | subst a b _ ih => simpa using ih.append (subst a b nil)
  | del a _ ih => simpa using ih.append (del a nil)
  | ins b _ ih => simpa using ih.append (ins b nil)

/-- the second alignment of a composition starts with insertions; what it then does to the head of the middle list
decides the first step of the composed one -/
theorem comp_cons {a : α} {k : ℕ} (hkeep : ∀ u n, Align t u n → ∃ c ≤ k + n, Align s (a :: u) c)
    (hsubst : ∀ b u n, Align t u n → ∃ c ≤ k + (n + 1), Align s (b :: u) c)
    (hdel : ∀ u n, Align t u n → ∃ c ≤ k + (n + 1), Align s u c) (h : Align (a :: t) u n) :
    ∃ c ≤ k + n, Align s u c := by
  induction u generalizing n with
  | nil =>
    cases h with
    | del _ h => exact hdel _ _ h
  | cons b u ih =>
    cases h with
    | keep _ h => exact hkeep _ _ h
    | subst _ _ h => exact hsubst _ _ _ h
    | del _ h => exact hdel _ _ h
    | ins _ h =>
      obtain ⟨c, hc, hsu⟩ := ih h
      exact ⟨c + 1, by omega, ins b hsu⟩

theorem comp (h : Align s t m) (h' : Align t u n) : ∃ c ≤ m + n, Align s u c := by
  induction h generalizing u n with
  | nil => exact ⟨n, by omega, h'⟩
  | keep a _ ih =>
    refine comp_cons (fun u n h => ?_) (fun b u n h => ?_) (fun u n h => ?_) h' <;> obtain ⟨c, hc, hsu⟩ := ih h
    · exact ⟨c, hc, keep a hsu⟩
    · exact ⟨c + 1, by omega, subst a b hsu⟩
    · exact ⟨c + 1, by omega, del a hsu⟩
  | subst a b _ ih =>
    refine comp_cons (fun u n h => ?_) (fun b u n h => ?_) (fun u n h => ?_) h' <;> obtain ⟨c, hc, hsu⟩ := ih h
    · exact ⟨c + 1, by omega, subst a _ hsu⟩
    · exact ⟨c + 1, by omega, subst a b hsu⟩
    · exact ⟨c + 1, by omega, del a hsu⟩
  | del a _ ih =>
    obtain ⟨c, hc, hsu⟩ := ih h'
    exact ⟨c + 1, by omega, del a hsu⟩
  | ins b _ ih =>
    refine comp_cons (fun u n h => ?_) (fun b u n h => ?_) (fun u n h => ?_) h' <;> obtain ⟨c, hc, hsu⟩ := ih h
    · exact ⟨c + 1, by omega, ins _ hsu⟩
    · exact ⟨c + 1, by omega, ins b hsu⟩
    · exact ⟨c, by omega, hsu⟩

theorem eq_of_zero (h : Align s t 0) : s = t := by
  generalize hn : 0 = n at h
  induction h with
  | nil => rfl
  | keep a _ ih => rw [ih hn]
  | subst a b _ _ => omega
  | del a _ _ => omega
  | ins b _ _ => omega

end Align

/-! ## The Levenshtein distance -/

section Lev

variable [DecidableEq α]

/-- the row of `a :: s`, from the row `f` of `s` -/
def levRow (f : List α → ℕ) (a : α) : List α → ℕ
  | [] => f [] + 1
  | b :: t => min (f t + if a = b then 0 else 1) (min (f (b :: t)) (levRow f a t) + 1)

/-- the Levenshtein distance -/
def lev : List α → List α → ℕ
  | [] => List.length
  | a :: s => levRow (lev s) a

variable (s t u : List α) (a b : α)

@[simp] theorem lev_nil_left : lev [] t = t.length := rfl

@[simp] theorem lev_nil_right : lev s [] = s.length := by
  induction s with
  | nil => rfl
  | cons a s ih => simp only [lev, levRow, ih, List.length_cons]

theorem lev_cons_cons :
    lev (a :: s) (b :: t) = min (lev s t + if a = b then 0 else 1) (min (lev s (b :: t)) (lev (a :: s) t) + 1) := rfl

theorem align_lev : Align s t (lev s t) := by
  induction s generalizing t with
  | nil => exact (Align.dels t).symm
  | cons a s ihs =>
    induction t with
    | nil => rw [lev_nil_right]; exact Align.dels _
    | cons b t iht =>
      have hsub : Align (a :: s) (b :: t) (lev s t + if a = b then 0 else 1) := by
        by_cases hab : a = b
        · rw [if_pos hab, hab]
          exact .keep b (ihs t)
        · rw [if_neg hab]
          exact .subst a b (ihs t)
      have hdel : Align (a :: s) (b :: t) (lev s (b :: t) + 1) := .del a (ihs (b :: t))
      have hins : Align (a :: s) (b :: t) (lev (a :: s) t + 1) := .ins b iht
      rw [lev_cons_cons]
      rcases min_choice (lev s t + if a = b then 0 else 1) (min (lev s (b :: t)) (lev (a :: s) t) + 1) with h | h
      · rwa [h]
      · rw [h]
        rcases min_choice (lev s (b :: t)) (lev (a :: s) t) with h | h
        · rwa [h]
        · rwa [h]

variable {s t u a b}

theorem lev_cons_left_le : lev (a :: s) t ≤ lev s t + 1 := by
  cases t with
  | nil => simp
  | cons b t => rw [lev_cons_cons]; omega

theorem lev_cons_right_le : lev s (b :: t) ≤ lev s t + 1 := by
  cases s with
  | nil => simp
  | cons a s => rw [lev_cons_cons]; omega

theorem lev_le {n : ℕ} (h : Align s t n) : lev s t ≤ n := by
  induction h with
  | nil => simp
  | keep a _ ih => rw [lev_cons_cons, if_pos rfl]; omega
  | subst a b _ ih => rw [lev_cons_cons]; split_ifs <;> omega
  | del a _ ih => exact lev_cons_left_le.trans (Nat.succ_le_succ ih)
  | ins b _ ih => exact lev_cons_right_le.trans (Nat.succ_le_succ ih)

theorem lev_self : lev s s = 0 := Nat.le_zero.1 (lev_le (Align.refl s))

theorem lev_eq_zero : lev s t = 0 ↔ s = t := by
  constructor
  · intro h
    have := align_lev s t
    rw [h] at this
    exact this.eq_of_zero
  · intro h
    rw [h, lev_self]

theorem lev_comm (s t : List α) : lev s t = lev t s :=
  le_antisymm (lev_le (align_lev t s).symm) (lev_le (align_lev s t).symm)

theorem lev_triangle (s t u : List α) : lev s u ≤ lev s t + lev t u := by
  obtain ⟨c, hc, h⟩ := (align_lev s t).comp (align_lev t u)
  exact (lev_le h).trans hc

theorem lev_reverse (s t : List α) : lev s.reverse t.reverse = lev s t := by
  apply le_antisymm
  · exact lev_le (align_lev s t).reverse
  · have := (align_lev s.reverse t.reverse).reverse
    rw [List.reverse_reverse, List.reverse_reverse] at this
    exact lev_le this

/-- an equal head does not count -/
theorem lev_cons_self (a : α) (s t : List α) : lev (a :: s) (a :: t) = lev s t := by
  have hdel : lev s t ≤ lev s (a :: t) + 1 :=
    (lev_triangle s (a :: t) t).trans (Nat.add_le_add_left (lev_cons_left_le.trans (by rw [lev_self])) _)
  have hins : lev s t ≤ lev (a :: s) t + 1 := by
    rw [Nat.add_comm]
    exact (lev_triangle s (a :: s) t).trans (Nat.add_le_add_right (lev_cons_right_le.trans (by rw [lev_self])) _)
  rw [lev_cons_cons, if_pos rfl, Nat.add_zero]
  omega

theorem lev_append_left (p s t : List α) : lev (p ++ s) (p ++ t) = lev s t := by
  induction p with
  | nil => rfl
  | cons a p ih => rw [List.cons_append, List.cons_append, lev_cons_self, ih]

theorem lev_append_right (s t p : List α) : lev (s ++ p) (t ++ p) = lev s t := by
  rw [← lev_reverse, List.reverse_append, List.reverse_append, lev_append_left, lev_reverse]

/-- the recursion on the last characters -/
theorem lev_snoc (s t : List α) (a b : α) :
    lev (s ++ [a]) (t ++ [b]) = min (lev s t + if a = b then 0 else 1) (min (lev s (t ++ [b])) (lev (s ++ [a]) t) + 1) := by
  rw [← lev_reverse, List.reverse_append, List.reverse_append]
  simp only [List.reverse_singleton, List.singleton_append]
  rw [lev_cons_cons, lev_reverse, ← lev_reverse s (t ++ [b]), ← lev_reverse (s ++ [a]) t]
  simp

theorem lev_le_max (s t : List α) : lev s t ≤ max s.length t.length := by
  induction s generalizing t with
  | nil => simp
  | cons a s ih =>
    cases t with
    | nil => simp
    | cons b t =>
      have := ih t
      rw [lev_cons_cons]
      simp only [List.length_cons]
      split_ifs <;> omega

end Lev

/-! ## Mismatches -/

section Mismatches

variable [DecidableEq α]

/-- positions at which the lists differ -/
def mismatches : List α → List α → ℕ
  | a :: s, b :: t => mismatches s t + if a = b then 0 else 1
  | _, _ => 0

theorem mismatches_comm (s t : List α) : mismatches s t = mismatches t s := by
  induction s generalizing t with
  | nil => cases t <;> rfl
  | cons a s ih =>
    cases t with
    | nil => rfl
    | cons b t => simp only [mismatches, ih t, eq_comm]

theorem mismatches_triangle {s t u : List α} (hst : s.length = t.length) (htu : t.length = u.length) :
    mismatches s u ≤ mismatches s t + mismatches t u := by
  induction s generalizing t u with
  | nil => simp [mismatches]
  | cons a s ih =>
    match t, u with
    | b :: t, c :: u =>
      have := ih (Nat.succ.inj hst) (Nat.succ.inj htu)
      simp only [mismatches]
      split_ifs <;> grind
    | [], _ => simp at hst
    | _ :: _, [] => simp at htu

theorem mismatches_eq_zero {s t : List α} (h : s.length = t.length) : mismatches s t = 0 ↔ s = t := by
  induction s generalizing t with
  | nil => cases t with
    | nil => simp [mismatches]
    | cons b t => simp at h
  | cons a s ih => cases t with
    | nil => simp at h
    | cons b t => simp [mismatches, ih (Nat.succ.inj h), and_comm]

theorem mismatches_le (s t : List α) : mismatches s t ≤ s.length := by
  induction s generalizing t with
  | nil => cases t <;> simp [mismatches]
  | cons a s ih =>
    cases t with
    | nil => simp [mismatches]
    | cons b t =>
      have := ih t
      simp only [mismatches, List.length_cons]
      split_ifs <;> omega

end Mismatches

end K23Search.Lib
