/-
Runs of a labelled transition system whose step is a partial function (`none`: the action is not enabled).

- `run`: execute a list of actions; `run_snoc`, `run_append` split an execution;
- `run_induction`: the invariant rule. The invariant may mention the actions executed so far, and every step may be
  assumed to meet a guard on the history, the state and the action (`Meets`; `meetsCheck` checks one on a given run);
- `run_guarded`: the runs of a system that refuses the other steps are the runs whose steps meet the guard;
- `run_simulation`: a step-by-step simulation lifts to runs (each concrete action is matched by a list of abstract
  actions);
- `run_lockstep`: two systems that take the same actions stay related.
-/
import Mathlib.Data.List.Basic
import Mathlib.Data.List.Induction

namespace K23Search.Lib

variable {S A : Type*}

/-- execute a list of actions from `s` -/
def run (step : S → A → Option S) (s : S) : List A → Option S
  | [] => some s
  | a :: as => (step s a).bind fun t => run step t as

theorem run_append (step : S → A → Option S) (s : S) (as bs : List A) :
    run step s (as ++ bs) = (run step s as).bind fun t => run step t bs := by
  induction as generalizing s with
  | nil => rfl
  | cons a as ih =>
    simp only [List.cons_append, run]
    cases step s a with
    | none => rfl
    | some t => exact ih t

theorem run_snoc (step : S → A → Option S) (s : S) (as : List A) (a : A) :
    run step s (as ++ [a]) = (run step s as).bind fun t => step t a := by
  rw [run_append]
  congr 1
  funext t
  simp only [run]
  cases step t a <;> rfl

theorem run_snoc_some {step : S → A → Option S} {s t : S} {as : List A} {a : A}
    (h : run step s (as ++ [a]) = some t) : ∃ u, run step s as = some u ∧ step u a = some t := by
  rw [run_snoc] at h
  exact Option.bind_eq_some_iff.1 h

/-- every step of the run from `s₀` along `as` meets the guard `G` (history, state before the step, action) -/
def Meets (step : S → A → Option S) (s₀ : S) (G : List A → S → A → Prop) (as : List A) : Prop :=
  ∀ pre a post u, as = pre ++ a :: post → run step s₀ pre = some u → G pre u a

theorem Meets.initial {step : S → A → Option S} {s₀ : S} {G : List A → S → A → Prop} {as bs : List A}
    (h : Meets step s₀ G as) (hpre : bs <+: as) : Meets step s₀ G bs := by
  obtain ⟨rest, rfl⟩ := hpre
  intro pre a post u hu hr
  exact h pre a (post ++ rest) u (by rw [hu, List.append_assoc, List.cons_append]) hr

theorem Meets.init {step : S → A → Option S} {s₀ : S} {G : List A → S → A → Prop} {as : List A} {a : A}
    (h : Meets step s₀ G (as ++ [a])) : Meets step s₀ G as :=
  h.initial (List.prefix_append as [a])

theorem Meets.last {step : S → A → Option S} {s₀ u : S} {G : List A → S → A → Prop} {as : List A} {a : A}
    (h : Meets step s₀ G (as ++ [a])) (hu : run step s₀ as = some u) : G as u a :=
  h as a [] u rfl hu

theorem Meets.snoc {step : S → A → Option S} {s₀ : S} {G : List A → S → A → Prop} {as : List A} {a : A}
    (h : Meets step s₀ G as) (hlast : ∀ u, run step s₀ as = some u → G as u a) : Meets step s₀ G (as ++ [a]) := by
  intro pre b post u hu hr
  rcases List.eq_nil_or_concat' post with rfl | ⟨post, c, rfl⟩
  · obtain ⟨rfl, hb⟩ := List.append_inj' hu rfl
    cases hb
    exact hlast u hr
  · rw [← List.cons_append, ← List.append_assoc] at hu
    exact h pre b post u (List.append_inj' hu rfl).1 hr

theorem meets_true (step : S → A → Option S) (s₀ : S) (as : List A) : Meets step s₀ (fun _ _ _ => True) as :=
  fun _ _ _ _ _ _ => trivial

/-- a guarded run, one step at a time -/
theorem meets_cons {step : S → A → Option S} {s₀ : S} {G : List A → S → A → Prop} {a : A} {as : List A}
    (h : G [] s₀ a) (hs : ∀ t, step s₀ a = some t → Meets step t (fun pre => G (a :: pre)) as) :
    Meets step s₀ G (a :: as) := by
  intro pre b post u hu hr
  cases pre with
  | nil =>
    cases hr
    cases hu
    exact h
  | cons c pre =>
    cases hu
    obtain ⟨t, ht, hr⟩ := Option.bind_eq_some_iff.1 hr
    exact hs t ht pre b post u rfl hr

/-- a guard on the state and the action, checked along the run -/
def meetsCheck (step : S → A → Option S) (G : S → A → Prop) [∀ s a, Decidable (G s a)] : S → List A → Bool
  | _, [] => true
  | s, a :: as => decide (G s a) && (step s a).all fun t => meetsCheck step G t as

theorem meets_of_check {step : S → A → Option S} {G : S → A → Prop} [∀ s a, Decidable (G s a)] {s₀ : S} {as : List A}
    (h : meetsCheck step G s₀ as = true) : Meets step s₀ (fun _ => G) as := by
  induction as generalizing s₀ with
  | nil => exact fun pre b post u hu => by simp at hu
  | cons a as ih =>
    rw [meetsCheck, Bool.and_eq_true, decide_eq_true_eq] at h
    refine meets_cons h.1 fun t ht => ih ?_
    rw [ht] at h
    exact h.2

/-- a system whose steps are those that meet a guard -/
def guarded (G : S → A → Bool) (step : S → A → Option S) (s : S) (a : A) : Option S :=
  if G s a then step s a else none

theorem guarded_some {G : S → A → Bool} {step : S → A → Option S} {s t : S} {a : A} :
    guarded G step s a = some t ↔ G s a = true ∧ step s a = some t := by
  unfold guarded
  split <;> simp [*]

/-- its runs are the runs whose steps meet the guard -/
theorem run_guarded {G : S → A → Bool} {step : S → A → Option S} {s₀ t : S} {as : List A} :
    run (guarded G step) s₀ as = some t ↔
      run step s₀ as = some t ∧ Meets step s₀ (fun _ s a => G s a = true) as := by
  induction as using List.reverseRecOn generalizing t with
  | nil => exact ⟨fun h => ⟨h, fun pre a post u hu => by simp at hu⟩, fun h => h.1⟩
  | append_singleton as a ih =>
    constructor
    · intro h
      obtain ⟨u, hu, ha⟩ := run_snoc_some h
      obtain ⟨hr, hm⟩ := ih.1 hu
      obtain ⟨hG, hs⟩ := guarded_some.1 ha
      refine ⟨by rw [run_snoc, hr]; exact hs, hm.snoc fun v hv => ?_⟩
      rw [Option.some.inj (hv.symm.trans hr)]
      exact hG
    · intro h
      obtain ⟨u, hu, ha⟩ := run_snoc_some h.1
      rw [run_snoc, ih.2 ⟨hu, h.2.init⟩]
      exact guarded_some.2 ⟨h.2.last hu, ha⟩

/-- **Invariant rule.** `I` holds at the start and every guarded step preserves it, so it holds after every run whose
steps meet the guard. -/
theorem run_induction {step : S → A → Option S} {s₀ : S} {G : List A → S → A → Prop} {I : List A → S → Prop}
    (h0 : I [] s₀)
    (hstep : ∀ as s a t, run step s₀ as = some s → G as s a → I as s → step s a = some t → I (as ++ [a]) t)
    {as : List A} {s : S} (hm : Meets step s₀ G as) (hr : run step s₀ as = some s) : I as s := by
  induction as using List.reverseRecOn generalizing s with
  | nil => cases hr; exact h0
  | append_singleton as a ih =>
    obtain ⟨u, hu, ha⟩ := run_snoc_some hr
    exact hstep as u a s hu (hm.last hu) (ih hm.init hu) ha

/-- the invariant rule for an invariant of the state alone, with no guard -/
theorem run_inv {step : S → A → Option S} {s₀ : S} {I : S → Prop} (h0 : I s₀)
    (hstep : ∀ s a t, I s → step s a = some t → I t) {as : List A} {s : S} (hr : run step s₀ as = some s) : I s :=
  run_induction (G := fun _ _ _ => True) (I := fun _ s => I s) h0 (fun _ s a t _ _ hi h => hstep s a t hi h)
    (meets_true step s₀ as) hr

/-- **Simulation.** If every concrete step from a state of `I` is matched, through the abstraction `f`, by the abstract
run along `act s a`, then every concrete run is matched by an abstract run. -/
theorem run_simulation {T B : Type*} {step : S → A → Option S} {astep : T → B → Option T} {s₀ : S} {I : S → Prop}
    (f : S → T) (act : S → A → List B) (h0 : I s₀) (hI : ∀ s a t, I s → step s a = some t → I t)
    (hsim : ∀ s a t, I s → step s a = some t → run astep (f s) (act s a) = some (f t))
    {as : List A} {s : S} (hr : run step s₀ as = some s) : ∃ bs, run astep (f s₀) bs = some (f s) := by
  induction as using List.reverseRecOn generalizing s with
  | nil => cases hr; exact ⟨[], rfl⟩
  | append_singleton as a ih =>
    obtain ⟨u, hu, ha⟩ := run_snoc_some hr
    obtain ⟨bs, hbs⟩ := ih hu
    refine ⟨bs ++ act u a, ?_⟩
    rw [run_append, hbs]
    exact hsim u a s (run_inv h0 hI hu) ha

/-- **Lockstep.** Two systems over the same actions, of which one can take an action exactly when the other can, and
whose states stay related: their runs are both possible and end related, or neither is possible. -/
theorem run_lockstep {T : Type*} {step : S → A → Option S} {tstep : T → A → Option T} {R : S → T → Prop}
    (hstep : ∀ s t a, R s t → Option.Rel R (step s a) (tstep t a)) {s : S} {t : T} (h0 : R s t) (as : List A) :
    Option.Rel R (run step s as) (run tstep t as) := by
  induction as generalizing s t with
  | nil => exact .some h0
  | cons a as ih =>
    have hrel := hstep s t a h0
    simp only [run]
    cases hs : step s a with
    | none =>
      rw [hs] at hrel
      cases ht : tstep t a with
      | none => exact .none
      | some t' => rw [ht] at hrel; cases hrel
    | some s' =>
      rw [hs] at hrel
      cases ht : tstep t a with
      | none => rw [ht] at hrel; cases hrel
      | some t' =>
        rw [ht] at hrel
        apply ih
        cases hrel
        assumption

end K23Search.Lib
