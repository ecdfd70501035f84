/-
Linearizability, by linearization points. A log records when an operation is invoked, takes effect and responds. It is
`Linearized` by a sequential specification if

- every thread's operations take effect once each, between invocation and response, and respond with the result they
  took effect with (`Legal`);
- the effects, in the order of the log, are a run of the specification (`Effects`).

The order of the effects therefore extends the real-time order of the operations.
-/
import Mathlib.Data.List.Basic

namespace K23Search.Lib

variable {Tid Op Res A : Type*}

/-- an event of a thread; an effect comes with the abstract state after it -/
inductive Event (Tid Op Res A : Type*) where
  | invoke (t : Tid) (op : Op)
  | effect (t : Tid) (op : Op) (res : Res) (a : A)
  | respond (t : Tid) (res : Res)

def Event.thread : Event Tid Op Res A → Tid
  | .invoke t _ | .effect t _ _ _ | .respond t _ => t

def Event.isEffect : Event Tid Op Res A → Bool
  | .effect .. => true
  | _ => false

/-- where a thread is: in no operation, in one that has not taken effect, or in one that has -/
inductive Point (Op Res : Type*) where
  | out
  | invoked (op : Op)
  | effective (res : Res)

/-- the events of thread `t` in the log are those of one operation after the other, and it is at the point given -/
inductive Legal (t : Tid) : List (Event Tid Op Res A) → Point Op Res → Prop
  | start : Legal t [] .out
  | invoke {log op} : Legal t log .out → Legal t (log ++ [.invoke t op]) (.invoked op)
  | effect {log op res a} : Legal t log (.invoked op) → Legal t (log ++ [.effect t op res a]) (.effective res)
  | respond {log res} : Legal t log (.effective res) → Legal t (log ++ [.respond t res]) .out
  | other {log p e} : Legal t log p → e.thread ≠ t → Legal t (log ++ [e]) p

/-- the effects of the log lead from `a₀` to the state given -/
inductive Effects (spec : A → Op → Res → A → Prop) (a₀ : A) : List (Event Tid Op Res A) → A → Prop
  | start : Effects spec a₀ [] a₀
  | effect {log a t op res a'} : Effects spec a₀ log a → spec a op res a' →
      Effects spec a₀ (log ++ [.effect t op res a']) a'
  | other {log a e} : Effects spec a₀ log a → e.isEffect = false → Effects spec a₀ (log ++ [e]) a

structure Linearized (spec : A → Op → Res → A → Prop) (a₀ : A) (log : List (Event Tid Op Res A)) (a : A) : Prop where
  threads : ∀ t, ∃ p, Legal t log p
  effects : Effects spec a₀ log a

/-- an operation that has taken effect, or responded, did so with an effect of its thread -/
theorem Legal.effect_mem {t : Tid} {log : List (Event Tid Op Res A)} {p : Point Op Res} (h : Legal t log p) :
    (∀ res, p = .effective res → ∃ op a, .effect t op res a ∈ log) ∧
      ∀ res, .respond t res ∈ log → ∃ op a, .effect t op res a ∈ log := by
  have hmem : ∀ {log : List (Event Tid Op Res A)} {e : Event Tid Op Res A} {res : Res},
      (∃ op a, .effect t op res a ∈ log) → ∃ op a, .effect t op res a ∈ log ++ [e] := by
    rintro log e res ⟨op, a, ha⟩
    exact ⟨op, a, List.mem_append_left _ ha⟩
  induction h with
  | start => simp
  | invoke _ ih =>
    refine ⟨by simp, fun res hres => hmem (ih.2 res ?_)⟩
    simpa using hres
  | @effect log op res a _ ih =>
    refine ⟨fun res' heq => ?_, fun res' hres => hmem (ih.2 res' ?_)⟩
    · cases heq
      exact ⟨op, a, by simp⟩
    · simpa using hres
  | @respond log res _ ih =>
    refine ⟨by simp, fun res' hres => hmem ?_⟩
    rcases List.mem_append.1 hres with hold | hnew
    · exact ih.2 res' hold
    · simp only [List.mem_singleton, Event.respond.injEq, true_and] at hnew
      exact hnew ▸ ih.1 res rfl
  | other _ hne ih =>
    refine ⟨fun res heq => hmem (ih.1 res heq), fun res hres => hmem (ih.2 res ?_)⟩
    rcases List.mem_append.1 hres with hold | hnew
    · exact hold
    · rw [List.mem_singleton] at hnew
      rw [← hnew] at hne
      exact absurd rfl hne

/-- what every transition of the specification establishes, with its operation, holds of every effect of the log -/
theorem Effects.all {spec : A → Op → Res → A → Prop} {a₀ a : A} {log : List (Event Tid Op Res A)}
    {P : Op → Res → A → Prop} (h : Effects spec a₀ log a) (hP : ∀ b op res b', spec b op res b' → P op res b') :
    ∀ t op res b, .effect t op res b ∈ log → P op res b := by
  induction h with
  | start => simp
  | effect _ hspec ih =>
    intro t op res b hmem
    rcases List.mem_append.1 hmem with hold | hnew
    · exact ih t op res b hold
    · simp only [List.mem_singleton, Event.effect.injEq] at hnew
      obtain ⟨-, rfl, rfl, rfl⟩ := hnew
      exact hP _ _ _ _ hspec
  | other _ hne ih =>
    intro t op res b hmem
    rcases List.mem_append.1 hmem with hold | hnew
    · exact ih t op res b hold
    · rw [List.mem_singleton] at hnew
      rw [← hnew] at hne
      cases hne

theorem Effects.mono {spec spec' : A → Op → Res → A → Prop} {a₀ a : A} {log : List (Event Tid Op Res A)}
    (h : Effects spec a₀ log a) (hspec : ∀ b op res b', spec b op res b' → spec' b op res b') :
    Effects spec' a₀ log a := by
  induction h with
  | start => exact .start
  | effect _ hstep ih => exact .effect ih (hspec _ _ _ _ hstep)
  | other _ hne ih => exact .other ih hne

theorem Linearized.mono {spec spec' : A → Op → Res → A → Prop} {a₀ a : A} {log : List (Event Tid Op Res A)}
    (h : Linearized spec a₀ log a) (hspec : ∀ b op res b', spec b op res b' → spec' b op res b') :
    Linearized spec' a₀ log a := ⟨h.threads, h.effects.mono hspec⟩

end K23Search.Lib
