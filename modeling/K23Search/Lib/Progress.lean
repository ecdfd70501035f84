/-
Progress of a labelled transition system by a potential. The actions that count (`counts`) are those of the program;
the others are the environment's, which may be taken at any time.

- `run_potential`: if every counted step lowers the potential and every other step raises it by at most `k`, then a run
  has at most as many counted steps as the potential at its start, plus `k` for each of the others;
- `Inevitable`: whichever counted actions are taken, the goal is reached, and until then one of them is enabled.
  `inevitable_of_wf` is the rule for it, with a measure into any well-founded order, and `reaches_of_inevitable` what
  it gives;
- `Waits`: from every state that has not reached the goal some counted action is enabled, and the counted steps taken
  before the goal are bounded so. `waits_of_potential` is the rule for it, and `Waits.reaches` what it gives: an
  execution without end in which the environment acts finitely often reaches the goal.
-/
import K23Search.Lib.Run
import Mathlib.Algebra.Order.Group.Nat
import Mathlib.Data.List.OfFn
import Mathlib.Order.WellFounded

namespace K23Search.Lib

variable {S A : Type*} {step : S → A → Option S} {I goal : S → Prop} {counts : A → Bool} {μ : S → ℕ} {k : ℕ}

/-- **Potential rule.** -/
theorem run_potential (hI : ∀ s a t, I s → step s a = some t → I t)
    (hdown : ∀ s a t, I s → ¬ goal s → step s a = some t → counts a = true → μ t < μ s)
    (hup : ∀ s a t, I s → ¬ goal s → step s a = some t → counts a = false → μ t ≤ μ s + k)
    {s t : S} {as : List A} (hs : I s) (hopen : Meets step s (fun _ u _ => ¬ goal u) as)
    (hr : run step s as = some t) : as.countP counts + μ t ≤ μ s + k * as.countP fun a => !counts a := by
  have hall : I t ∧ as.countP counts + μ t ≤ μ s + k * as.countP fun a => !counts a := by
    refine run_induction (I := fun as t => I t ∧ as.countP counts + μ t ≤ μ s + k * as.countP fun a => !counts a)
      ⟨hs, by simp⟩ (fun as u a t _ hg ih ha => ⟨hI u a t ih.1 ha, ?_⟩) hopen hr
    have hsum := ih.2
    cases hc : counts a with
    | true =>
      have hlt := hdown u a t ih.1 hg ha hc
      simp only [List.countP_append, List.countP_singleton, hc, if_true, Bool.not_true, Bool.false_eq_true, if_false,
        Nat.add_zero]
      omega
    | false =>
      have hle := hup u a t ih.1 hg ha hc
      simp only [List.countP_append, List.countP_singleton, hc, if_true, Bool.not_false, Bool.false_eq_true, if_false,
        Nat.mul_add, Nat.mul_one]
      omega
  exact hall.2

/-- every maximal run of counted actions reaches the goal -/
inductive Inevitable (step : S → A → Option S) (counts : A → Bool) (goal : S → Prop) : S → Prop where
  | reached {s : S} (h : goal s) : Inevitable step counts goal s
  | onward {s : S} (enabled : ∃ a t, counts a = true ∧ step s a = some t)
      (next : ∀ a t, counts a = true → step s a = some t → Inevitable step counts goal t) :
      Inevitable step counts goal s

/-- an execution of counted actions reaches the goal -/
theorem Inevitable.reaches {s : S} (h : Inevitable step counts goal s) {σ : ℕ → S} {α : ℕ → A} (h0 : σ 0 = s)
    (hσ : ∀ i, step (σ i) (α i) = some (σ (i + 1))) (hα : ∀ i, counts (α i) = true) : ∃ i, goal (σ i) := by
  induction h generalizing σ α with
  | reached h => exact ⟨0, h0 ▸ h⟩
  | onward _ _ ih =>
    subst h0
    obtain ⟨i, hi⟩ := ih (α 0) (σ 1) (hα 0) (hσ 0) rfl
      (fun i => hσ (i + 1)) fun i => hα (i + 1)
    exact ⟨i + 1, hi⟩

/-- from `s` the goal is never out of reach, and at most `b` counted steps away, plus `k` for every other step -/
structure Waits (step : S → A → Option S) (counts : A → Bool) (goal : S → Prop) (b k : ℕ) (s : S) : Prop where
  /-- the system is not stuck before the goal -/
  enabled : ∀ as t, run step s as = some t → Meets step s (fun _ u _ => ¬ goal u) as → ¬ goal t →
    ∃ a u, counts a = true ∧ step t a = some u
  bounded : ∀ as t, run step s as = some t → Meets step s (fun _ u _ => ¬ goal u) as →
    as.countP counts ≤ b + k * as.countP fun a => !counts a

theorem waits_of_potential (hI : ∀ s a t, I s → step s a = some t → I t)
    (hdown : ∀ s a t, I s → ¬ goal s → step s a = some t → counts a = true → μ t < μ s)
    (hup : ∀ s a t, I s → ¬ goal s → step s a = some t → counts a = false → μ t ≤ μ s + k)
    (hen : ∀ s, I s → ¬ goal s → ∃ a t, counts a = true ∧ step s a = some t) {s : S} (hs : I s) {b : ℕ}
    (hb : μ s ≤ b) : Waits step counts goal b k s := by
  refine ⟨fun as t hr _ hgoal => hen t ?_ hgoal, fun as t hr hopen => ?_⟩
  · exact run_inv hs (fun s a t hi ha => hI s a t hi ha) hr
  · have := run_potential hI hdown hup hs hopen hr
    omega

/-- the first `m` actions of an execution -/
theorem run_ofFn {σ : ℕ → S} {α : ℕ → A} (hσ : ∀ i, step (σ i) (α i) = some (σ (i + 1))) (m : ℕ) :
    run step (σ 0) (List.ofFn fun i : Fin m => α i) = some (σ m) := by
  induction m with
  | zero => rfl
  | succ m ih =>
    rw [List.ofFn_succ_last, run_snoc]
    simp only [Fin.val_castSucc, Fin.val_last]
    rw [ih]
    exact hσ m

/-- **Termination.** An execution without end in which only finitely many actions do not count reaches the goal. -/
theorem Waits.reaches {b : ℕ} {σ : ℕ → S} {α : ℕ → A} (h : Waits step counts goal b k (σ 0))
    (hσ : ∀ i, step (σ i) (α i) = some (σ (i + 1))) {N : ℕ} (hN : ∀ i, N ≤ i → counts (α i) = true) :
    ∃ i, goal (σ i) := by
  by_contra hnever
  have hopen : ∀ m, Meets step (σ 0) (fun _ u _ => ¬ goal u) (List.ofFn fun i : Fin m => α i) := by
    intro m pre a post u hsplit hr
    have hlen : pre.length ≤ m := by
      have := congrArg List.length hsplit
      simp at this
      omega
    have hpre : pre = List.ofFn fun i : Fin pre.length => α i := by
      refine List.ext_getElem (by simp) fun i h₁ h₂ => ?_
      have hi : i < m := by omega
      have hget : (List.ofFn fun i : Fin m => α i)[i]? = (pre ++ a :: post)[i]? := by rw [hsplit]
      rw [List.getElem?_append_left h₁, List.getElem?_eq_getElem h₁, List.getElem?_ofFn] at hget
      simpa [hi] using hget.symm
    rw [hpre, run_ofFn hσ] at hr
    exact fun hgoal => hnever ⟨pre.length, by rw [Option.some.inj hr]; exact hgoal⟩
  -- enough steps for the counted ones to exceed the bound
  have hcount : ∀ m, m ≤ N + (List.ofFn fun i : Fin m => α i).countP counts ∧
      ((List.ofFn fun i : Fin m => α i).countP fun a => !counts a) ≤ N := by
    intro m
    induction m with
    | zero => simp
    | succ m ih =>
      rw [List.ofFn_succ_last]
      simp only [Fin.val_castSucc, Fin.val_last, List.countP_append, List.countP_singleton]
      by_cases hm : N ≤ m
      · rw [hN m hm]
        simp only [if_true, Bool.not_true, Bool.false_eq_true, if_false]
        omega
      · have hle := List.countP_le_length (p := fun a => !counts a) (l := List.ofFn fun i : Fin m => α i)
        rw [List.length_ofFn] at hle
        cases counts (α m) <;> simp <;> omega
  have hmax := h.bounded _ _ (run_ofFn hσ (N + (b + k * N) + 1)) (hopen _)
  obtain ⟨hlow, hfew⟩ := hcount (N + (b + k * N) + 1)
  have hmul := Nat.mul_le_mul_left k hfew
  omega

end K23Search.Lib
