/-
The life of a `qs::scheduler` (include/qs/scheduler.hpp, src/lib/scheduler.cpp): the constructor creates the threads
one after the other, the client submits jobs and waits for them, the destructor stops every worker and then joins
every thread.

Results, for every order of the steps of the threads:
- `inv_step`, `inv_run`: `Inv` holds in every reachable state;
- `jobs_kept`: jobs are started in order and each at most once, through no dangling pointer; after the destructor
  every thread has left its loop, every started job has finished, and the jobs not started are still queued;
- `closed_starts`: behind the close a worker starts one more job at most;
- `destructor_returns`: the destructor returns under every schedule.

Witnesses: `jobs_kept_dropped`, `destructor_returns_busy`, `closed_starts_one`.
-/
import K23Search.Concurrency.Shutdown

namespace K23Search

open K23Search.Lib

/-! ## The life of a scheduler -/

/-- what the client does with the scheduler object -/
inductive Stage (n : ℕ) where
  /-- in the constructor, at the push of this worker and the creation of its thread -/
  | constructing (i : Fin n)
  | live
  /-- in the destructor, in `stop` of this worker -/
  | stopping (i : Fin n)
  /-- in the destructor, at `pthread_join` of this worker's thread -/
  | joining (i : Fin n)
  | destroyed
deriving DecidableEq, Repr

/-- the destructor has not been called -/
def Stage.isUp {n : ℕ} : Stage n → Bool
  | .constructing _ => true
  | .live => true
  | _ => false

structure Lifetime (n : ℕ) (J : Type) where
  sched : Scheduler n J
  stage : Stage n

namespace Lifetime

variable {n : ℕ} {J : Type}

inductive Act (n : ℕ) (J : Type) where
  /-- a call of the client, or a step of a thread -/
  | on (a : Scheduler.Act n J)
  /-- `~scheduler` is called -/
  | destroy

def Act.isThread : Act n J → Bool
  | .on a => a.isThread
  | .destroy => false

/-- the actions at the scheduler's own functions -/
def calls (as : List (Act n J)) : List (Scheduler.Act n J) :=
  as.filterMap fun
    | .on a => some a
    | .destroy => none

/-- the jobs that a run submits -/
def jobs (as : List (Act n J)) : List J := Scheduler.submissions (calls as)

/-- the thread of worker `i` has been created -/
def hasThread (s : Lifetime n J) (i : Fin n) : Bool :=
  match s.stage with
  | .constructing k => decide (i < k)
  | _ => true

def withSched (s : Lifetime n J) (sched : Scheduler n J) : Lifetime n J := { s with sched := sched }

def goto (s : Lifetime n J) (stage : Stage n) : Lifetime n J := { s with stage := stage }

/-- the first loop of the destructor comes to worker `i` -/
def stopOn (s : Lifetime n J) (i : Fin n) : Option (Lifetime n J) :=
  (s.sched.workers i).stop.map fun w => (s.withSched (s.sched.put i w)).goto (.stopping i)

variable [NeZero n]

def init : Lifetime n J := ⟨Scheduler.init, .constructing Scheduler.first⟩

/-- the thread of worker `i` has been created -/
def constructed (s : Lifetime n J) (i : Fin n) : Lifetime n J :=
  s.goto (if h : i.val + 1 < n then .constructing ⟨i.val + 1, h⟩ else .live)

/-- `stop` of worker `i` has returned -/
def stopped (s : Lifetime n J) (i : Fin n) : Option (Lifetime n J) :=
  if h : i.val + 1 < n then s.stopOn ⟨i.val + 1, h⟩ else some (s.goto (.joining Scheduler.first))

/-- `pthread_join` of the thread of worker `i` has returned -/
def joined (s : Lifetime n J) (i : Fin n) : Lifetime n J :=
  s.goto (if h : i.val + 1 < n then .joining ⟨i.val + 1, h⟩ else .destroyed)

def step (s : Lifetime n J) : Act n J → Option (Lifetime n J)
  | .destroy =>
    match s.stage, s.sched.client with
    | .live, .idle => s.stopOn Scheduler.first
    | _, _ => none
  | .on (.client woken) =>
    match s.stage with
    | .constructing i => some (s.constructed i)
    | .live => (s.sched.step (.client woken)).map s.withSched
    | .stopping i =>
      match (s.sched.workers i).clientReturn with
      | some w => (s.withSched (s.sched.put i w)).stopped i
      | none => ((s.sched.workers i).clientStep woken).map fun w => s.withSched (s.sched.put i w)
    | .joining i =>
      match (s.sched.workers i).pc with
      | .stopped => some (s.joined i)
      | _ => none
    | .destroyed => none
  | .on (.worker i woken) =>
    if s.hasThread i then (s.sched.step (.worker i woken)).map s.withSched else none
  | .on (.spurious i t) => (s.sched.step (.spurious i t)).map s.withSched
  | .on a =>
    match s.stage with
    | .live => (s.sched.step a).map s.withSched
    | _ => none

/-! ## The invariant -/

/-- a worker in the destructor -/
def Down : Stage n → Fin n → Worker J → Prop
  | .stopping k, i, w => (i < k → w.Closed) ∧ (i = k → w.Closing ∧ w.queue.pc .client ≠ .idle) ∧ (k < i → w.Inv .out)
  | .joining k, i, w => w.Closed ∧ (i < k → w.pc = .stopped)
  | .destroyed, _, w => w.Closed ∧ w.pc = .stopped
  | _, _, _ => True

structure Inv (as : List (Act n J)) (s : Lifetime n J) : Prop where
  /-- up to the destructor the scheduler runs as before -/
  up : s.stage.isUp = true → Scheduler.Inv (calls as) s.sched
  /-- no call is open in the constructor and in the destructor -/
  idle : s.stage ≠ .live → s.sched.client = .idle
  submitted : ∀ i, (s.sched.workers i).submitted = Scheduler.dealt i (jobs as)
  down : ∀ i, Down s.stage i (s.sched.workers i)

variable {as : List (Act n J)} {s s' : Lifetime n J}

/-- in the destructor -/
theorem Inv.of_down (hstage : s.stage.isUp = false) (hidle : s.sched.client = .idle)
    (hsub : ∀ i, (s.sched.workers i).submitted = Scheduler.dealt i (jobs as))
    (hdown : ∀ i, Down s.stage i (s.sched.workers i)) : Inv as s := by
  refine ⟨fun hup => ?_, fun _ => hidle, hsub, hdown⟩
  rw [hstage] at hup
  cases hup

omit [NeZero n] in
theorem calls_snoc (as : List (Act n J)) (a : Scheduler.Act n J) : calls (as ++ [.on a]) = calls as ++ [a] := by
  simp [calls]

omit [NeZero n] in
theorem calls_destroy (as : List (Act n J)) : calls (as ++ [.destroy]) = calls as := by
  simp [calls]

omit [NeZero n] in
theorem jobs_snoc (as : List (Act n J)) {a : Scheduler.Act n J} (ha : Scheduler.submissions [a] = []) :
    jobs (as ++ [.on a]) = jobs as := by
  rw [jobs, calls_snoc, Scheduler.submissions_append, ha, List.append_nil]
  rfl

theorem inv_init : Inv [] (init : Lifetime n J) :=
  ⟨fun _ => Scheduler.free_init.inv rfl, fun _ => rfl, fun _ => rfl, fun _ => trivial⟩

/-- the invariant of the scheduler looks at the jobs submitted only -/
theorem schedInv_of_jobs {as bs : List (Scheduler.Act n J)} {s : Scheduler n J} (h : Scheduler.Inv as s)
    (hjobs : Scheduler.submissions bs = Scheduler.submissions as) : Scheduler.Inv bs s :=
  ⟨h.worker, by rw [hjobs]; exact h.submitted, by rw [hjobs]; exact h.upcoming_eq, h.passed⟩

omit [NeZero n] in
/-- a step of a thread at worker `i`, or a spurious wake-up -/
theorem down_put (hdown : ∀ k, Down s.stage k (s.sched.workers k)) {i : Fin n} {w : Worker J}
    (hw : Down s.stage i w) (k : Fin n) : Down s.stage k ((s.sched.put i w).workers k) := by
  by_cases hk : k = i
  · subst hk
    rw [Scheduler.put_self]
    exact hw
  · rw [Scheduler.put_ne _ hk]
    exact hdown k

omit [NeZero n] in
theorem submitted_put {i : Fin n} {w : Worker J} (hw : w.submitted = (s.sched.workers i).submitted) (k : Fin n) :
    ((s.sched.put i w).workers k).submitted = (s.sched.workers k).submitted := by
  by_cases hk : k = i
  · subst hk
    rw [Scheduler.put_self]
    exact hw
  · rw [Scheduler.put_ne _ hk]

omit [NeZero n] in
theorem down_step {stage : Stage n} {i : Fin n} {w w' : Worker J} {woken : Party → Bool} (h : Down stage i w)
    (hs : w.step woken = some w') : Down stage i w' := by
  have hclosed : w.Closed → w'.Closed := fun hc => by
    obtain ⟨hclosing, hclient⟩ := Worker.closing_step hc.1 hs
    exact ⟨hclosing, hclient.trans hc.2⟩
  have hend : w.Closed → w.pc ≠ .stopped := fun hc hstop => by
    rw [(hc.at_end hstop).2.2.1 woken] at hs
    cases hs
  cases stage with
  | stopping k =>
    refine ⟨fun hlt => hclosed (h.1 hlt), fun heq => ?_, fun hlt => Worker.inv_step (h.2.2 hlt) hs⟩
    obtain ⟨hclosing, hclient⟩ := Worker.closing_step (h.2.1 heq).1 hs
    exact ⟨hclosing, by rw [hclient]; exact (h.2.1 heq).2⟩
  | joining k => exact ⟨hclosed h.1, fun hlt => absurd (h.2 hlt) (hend h.1)⟩
  | destroyed => exact absurd h.2 (hend h.1)
  | _ => trivial

omit [NeZero n] in
theorem down_spurious {stage : Stage n} {i : Fin n} {w w' : Worker J} {t : Party} (h : Down stage i w)
    (hs : w.spurious t = some w') : Down stage i w' := by
  have hclosed : w.Closed → w'.Closed := fun hc => by
    obtain ⟨hclosing, hclient, -⟩ := Worker.closing_spurious hc.1 hs
    exact ⟨hclosing, hclient.trans hc.2⟩
  have hend : w.Closed → w.pc ≠ .stopped := fun hc hstop => by
    rw [(hc.at_end hstop).2.2.2 t] at hs
    cases hs
  cases stage with
  | stopping k =>
    refine ⟨fun hlt => hclosed (h.1 hlt), fun heq => ?_, fun hlt => Worker.inv_spurious (h.2.2 hlt) hs⟩
    obtain ⟨hclosing, hclient, -⟩ := Worker.closing_spurious (h.2.1 heq).1 hs
    exact ⟨hclosing, by rw [hclient]; exact (h.2.1 heq).2⟩
  | joining k => exact ⟨hclosed h.1, fun hlt => absurd (h.2 hlt) (hend h.1)⟩
  | destroyed => exact absurd h.2 (hend h.1)
  | _ => trivial

/-- `stop` is called on worker `i`; those before it are closed -/
theorem stopOn_inv (hidle : s.sched.client = .idle)
    (hsub : ∀ i, (s.sched.workers i).submitted = Scheduler.dealt i (jobs as)) {i : Fin n}
    (hclosed : ∀ k < i, (s.sched.workers k).Closed) (hopen : ∀ k, i ≤ k → (s.sched.workers k).Inv .out)
    (hs : s.stopOn i = some s') : Inv as s' := by
  obtain ⟨w, hw, rfl⟩ := Option.map_eq_some_iff.1 hs
  obtain ⟨q, -, hrec⟩ := Option.map_eq_some_iff.1 hw
  refine .of_down rfl hidle (fun k => ?_) fun k => ?_
  · exact (submitted_put (by rw [← hrec]) k).trans (hsub k)
  · change Down (.stopping i) k ((s.sched.put i w).workers k)
    by_cases hk : k = i
    · subst hk
      rw [Scheduler.put_self]
      exact ⟨fun hlt => absurd hlt (lt_irrefl _), fun _ => Worker.closing_stop (hopen k le_rfl) hw,
        fun hlt => absurd hlt (lt_irrefl _)⟩
    · rw [Scheduler.put_ne _ hk]
      exact ⟨fun hlt => hclosed k hlt, fun heq => absurd heq hk, fun hlt => hopen k (le_of_lt hlt)⟩

/-- **Step lemma.** Every step of a thread, every call and every spurious wake-up keeps the invariant. -/
theorem inv_step {a : Act n J} (h : Inv as s) (hs : s.step a = some s') : Inv (as ++ [a]) s' := by
  cases a with
  | destroy =>
    simp only [step] at hs
    split at hs
    · next hstage hclient =>
      have hfree := (h.up (by rw [hstage]; rfl)).free hclient
      refine stopOn_inv hclient (fun i => ?_) (fun k hk => absurd hk (Nat.not_lt_zero _)) (fun k _ => hfree.worker k) hs
      rw [h.submitted i, jobs, jobs, calls_destroy]
    · cases hs
  | on a =>
    -- a step of the scheduler's own
    have hsched : ∀ t, s.stage = .live → s.sched.step a = some t → Inv (as ++ [.on a]) (s.withSched t) := by
      intro t hstage ht
      have hinv := Scheduler.inv_step (h.up (by rw [hstage]; rfl)) ht
      rw [← calls_snoc] at hinv
      refine ⟨fun _ => hinv, fun hne => absurd hstage hne, hinv.submitted, fun k => ?_⟩
      change Down s.stage k _
      rw [hstage]
      trivial
    have hlocal : ∀ (i : Fin n) (w : Worker J), Scheduler.submissions [a] = [] →
        s.sched.step a = some (s.sched.put i w) → w.submitted = (s.sched.workers i).submitted →
        Down s.stage i w → Inv (as ++ [.on a]) (s.withSched (s.sched.put i w)) := by
      intro i w ha ht hw hdown
      refine ⟨fun hup => ?_, h.idle, fun k => ?_, fun k => down_put h.down hdown k⟩
      · rw [calls_snoc]
        exact Scheduler.inv_step (h.up hup) ht
      · rw [jobs_snoc as ha]
        exact (submitted_put hw k).trans (h.submitted k)
    cases a with
    | submitJob j =>
      simp only [step] at hs
      split at hs
      · next hstage =>
        obtain ⟨t, ht, rfl⟩ := Option.map_eq_some_iff.1 hs
        exact hsched t hstage ht
      · cases hs
    | waitAllFinish =>
      simp only [step] at hs
      split at hs
      · next hstage =>
        obtain ⟨t, ht, rfl⟩ := Option.map_eq_some_iff.1 hs
        exact hsched t hstage ht
      · cases hs
    | worker i woken =>
      simp only [step] at hs
      split at hs
      · obtain ⟨t, ht, rfl⟩ := Option.map_eq_some_iff.1 hs
        obtain ⟨w, hw, rfl⟩ := Option.map_eq_some_iff.1 ht
        exact hlocal i w rfl ht (Worker.step_effect hw).1 (down_step (h.down i) hw)
      · cases hs
    | spurious i t =>
      simp only [step] at hs
      obtain ⟨t', ht, rfl⟩ := Option.map_eq_some_iff.1 hs
      obtain ⟨w, hw, rfl⟩ := Option.map_eq_some_iff.1 ht
      exact hlocal i w rfl ht (Worker.spurious_records hw).1 (down_spurious (h.down i) hw)
    | client woken =>
      have hjobs : jobs (as ++ [.on (.client woken)]) = jobs as := jobs_snoc as rfl
      have hsub : ∀ i, (s.sched.workers i).submitted = Scheduler.dealt i (jobs (as ++ [.on (.client woken)])) := by
        rw [hjobs]
        exact h.submitted
      simp only [step] at hs
      split at hs
      · next i hstage =>
        -- the next worker is created, or the constructor returns
        cases hs
        have hidle := h.idle fun hlive => by rw [hstage] at hlive; cases hlive
        refine ⟨fun _ => schedInv_of_jobs (h.up (by rw [hstage]; rfl)) hjobs, fun _ => hidle, hsub, fun k => ?_⟩
        simp only [constructed, goto]
        split <;> trivial
      · next hstage =>
        obtain ⟨t, ht, rfl⟩ := Option.map_eq_some_iff.1 hs
        exact hsched t hstage ht
      · next i hstage =>
        have hidle := h.idle fun hlive => by rw [hstage] at hlive; cases hlive
        have hdown : ∀ k, Down (.stopping i) k (s.sched.workers k) := fun k => by
          have hk := h.down k
          rwa [hstage] at hk
        split at hs
        · next w hw =>
          have hclosed := Worker.closing_clientReturn ((hdown i).2.1 rfl).1 hw
          have hput : ∀ k ≤ i, ((s.sched.put i w).workers k).Closed := by
            intro k hk
            by_cases hki : k = i
            · subst hki
              rwa [Scheduler.put_self]
            · rw [Scheduler.put_ne _ hki]
              exact (hdown k).1 (lt_of_le_of_ne hk hki)
          have hsub' : ∀ k, ((s.sched.put i w).workers k).submitted = _ := fun k =>
            (submitted_put (Worker.clientReturn_records hw).1 k).trans (hsub k)
          unfold stopped at hs
          split at hs
          · next hnext =>
            refine stopOn_inv (s := s.withSched (s.sched.put i w)) hidle hsub' (fun k hk => ?_) (fun k hk => ?_) hs
            · exact hput k (Nat.le_of_lt_succ hk)
            · have hlt : i < k := hk
              change ((s.sched.put i w).workers k).Inv .out
              rw [Scheduler.put_ne _ (ne_of_gt hlt)]
              exact (hdown k).2.2 hlt
          · next hlast =>
            cases hs
            refine .of_down rfl hidle hsub' fun k => ?_
            exact ⟨hput k (Nat.le_of_lt_succ (by omega)), fun hlt => absurd hlt (Nat.not_lt_zero _)⟩
        · obtain ⟨w, hw, rfl⟩ := Option.map_eq_some_iff.1 hs
          have hclosing := Worker.closing_clientStep ((hdown i).2.1 rfl).1 hw
          refine .of_down (show s.stage.isUp = false by rw [hstage]; rfl) hidle (fun k => ?_) fun k => ?_
          · exact (submitted_put (Worker.clientStep_records hw).1 k).trans (hsub k)
          · refine down_put h.down ?_ k
            rw [hstage]
            exact ⟨fun hlt => absurd hlt (lt_irrefl _), fun _ => hclosing, fun hlt => absurd hlt (lt_irrefl _)⟩
      · next i hstage =>
        have hidle := h.idle fun hlive => by rw [hstage] at hlive; cases hlive
        have hdown : ∀ k, Down (.joining i) k (s.sched.workers k) := fun k => by
          have hk := h.down k
          rwa [hstage] at hk
        split at hs
        · next hstop =>
          cases hs
          have hpast : ∀ k ≤ i, (s.sched.workers k).pc = .stopped := by
            intro k hk
            by_cases hki : k = i
            · rw [hki]
              exact hstop
            · exact (hdown k).2 (lt_of_le_of_ne hk hki)
          unfold joined
          split
          · refine .of_down rfl hidle hsub fun k => ?_
            exact ⟨(hdown k).1, fun hlt => hpast k (Nat.le_of_lt_succ hlt)⟩
          · refine .of_down rfl hidle hsub fun k => ?_
            exact ⟨(hdown k).1, hpast k (Nat.le_of_lt_succ (by omega))⟩
        · cases hs
      · cases hs

theorem inv_run (hr : run step (init : Lifetime n J) as = some s) : Inv as s :=
  run_induction (G := fun _ _ _ => True) inv_init (fun _ _ _ _ _ _ h hs => inv_step h hs) (meets_true step init as) hr

/-! ## What the invariant says -/

theorem Inv.sound (h : Inv as s) (i : Fin n) : (s.sched.workers i).Sound := by
  have hdown := h.down i
  cases hstage : s.stage with
  | stopping k =>
    rw [hstage] at hdown
    rcases lt_trichotomy i k with hlt | heq | hlt
    · exact (hdown.1 hlt).1.sound
    · exact (hdown.2.1 heq).1.sound
    · exact (hdown.2.2 hlt).sound
  | joining k =>
    rw [hstage] at hdown
    exact hdown.1.1.sound
  | destroyed =>
    rw [hstage] at hdown
    exact hdown.1.1.sound
  | constructing k => exact ((h.up (by rw [hstage]; rfl)).worker i).sound
  | live => exact ((h.up (by rw [hstage]; rfl)).worker i).sound

/-- **Jobs over the life of a scheduler.** In every run, from the constructor on: each worker starts the jobs it was
dealt in order and each at most once, calls them through no dangling pointer, and finishes them in that order. When
the destructor has returned, no thread can take a step at its worker any more, every started job has finished, and
the jobs that were not started are exactly those left in the queues. -/
theorem jobs_kept (hr : run step (init : Lifetime n J) as = some s) :
    (∀ i, (s.sched.workers i).started <+: Scheduler.dealt i (jobs as) ∧
      (s.sched.workers i).finished <+: (s.sched.workers i).started) ∧
    (∀ i p, (s.sched.workers i).pc = .ready p → ∃ j, (s.sched.workers i).queue.q.get p = some j) ∧
    (∀ i p j, (s.sched.workers i).pc = .running p j → (s.sched.workers i).queue.q.get p = some j) ∧
    (s.stage = .destroyed → ∀ i, (s.sched.workers i).pc = .stopped ∧
      (s.sched.workers i).started = (s.sched.workers i).finished ∧
      Scheduler.dealt i (jobs as) = (s.sched.workers i).finished ++ (s.sched.workers i).queue.q.nodes.map Prod.snd ∧
      (∀ woken, s.step (.on (.worker i woken)) = none) ∧ ∀ t, s.step (.on (.spurious i t)) = none) := by
  have h := inv_run hr
  refine ⟨fun i => ?_, fun i => (h.sound i).deref.1, fun i => (h.sound i).deref.2, fun hstage i => ?_⟩
  · rw [← h.submitted i]
    exact (h.sound i).started_order.symm
  · obtain ⟨hclosed, hstop⟩ : (s.sched.workers i).Closed ∧ (s.sched.workers i).pc = .stopped := by
      have hdown := h.down i
      rwa [hstage] at hdown
    obtain ⟨hstart, hsub, hstep, hspur⟩ := hclosed.at_end hstop
    refine ⟨hstop, hstart, by rw [← h.submitted i, hsub], fun woken => ?_, fun t => ?_⟩
    · simp only [step, Scheduler.step, hstep, Option.map_none, ite_self]
    · simp only [step, Scheduler.step, hspur, Option.map_none]

/-- `m` steps of the client -/
def clientSteps (m : ℕ) : List (Act 1 ℕ) := List.replicate m (.on (.client fun _ => true))

/-- `m` steps of the one worker -/
def workerSteps (m : ℕ) : List (Act 1 ℕ) := List.replicate m (.on (.worker 0 fun _ => true))

/-- two jobs are submitted, and the thread comes to the call of the first -/
def busyRun : List (Act 1 ℕ) :=
  clientSteps 1 ++ .on (.submitJob 7) :: clientSteps 5 ++ .on (.submitJob 8) :: clientSteps 4 ++ workerSteps 6

/-- the destructor is called then; the second job is never run -/
def droppedRun : List (Act 1 ℕ) := busyRun ++ .destroy :: clientSteps 5 ++ workerSteps 14 ++ clientSteps 1

theorem jobs_kept_dropped : ∃ s : Lifetime 1 ℕ, run step init droppedRun = some s ∧ s.stage = .destroyed ∧
    (s.sched.workers 0).finished = [7] ∧
    Scheduler.dealt (0 : Fin 1) (jobs droppedRun) =
      (s.sched.workers 0).finished ++ (s.sched.workers 0).queue.q.nodes.map Prod.snd := by
  obtain ⟨s, hr, hstage, hfin⟩ : ∃ s : Lifetime 1 ℕ, run step init droppedRun = some s ∧ s.stage = .destroyed ∧
      (s.sched.workers 0).finished = [7] := ⟨_, rfl, rfl, rfl⟩
  exact ⟨s, hr, hstage, hfin, ((jobs_kept hr).2.2.2 hstage 0).2.2.1⟩

/-! ## The destructor returns -/

/-- the calls of `stop` and `pthread_join` that the destructor has still to make -/
def stageRank : Stage n → ℕ
  | .stopping i => 8 * (n - i.val) + n
  | .joining i => n - i.val
  | _ => 0

def potential (s : Lifetime n J) : ℕ := s.sched.work + stageRank s.stage

omit [NeZero n] in
theorem stopOn_potential {i : Fin n} (hs : s.stopOn i = some s') :
    s'.sched.work = s.sched.work + 7 ∧ s'.stage = .stopping i := by
  obtain ⟨w, hw, rfl⟩ := Option.map_eq_some_iff.1 hs
  have hwork := s.sched.work_put i w
  have hpot := Worker.stop_potential hw
  refine ⟨?_, rfl⟩
  change (s.sched.put i w).work = _
  omega

omit [NeZero n] in
theorem stopOn_some {i : Fin n} (hidle : (s.sched.workers i).queue.pc .client = .idle) : ∃ t, s.stopOn i = some t :=
  ⟨_, by simp only [stopOn, Worker.stop, CQueue.call, hidle]; rfl⟩

/-- a step of a thread in the destructor lowers the potential -/
theorem step_potential (h : Inv as s) (hstage : s.stage.isUp = false) {a : Act n J} (ha : a.isThread = true)
    (hs : s.step a = some s') : s'.potential < s.potential := by
  have hput : ∀ (i : Fin n) (w : Worker J), w.potential < (s.sched.workers i).potential →
      (s.withSched (s.sched.put i w)).potential < s.potential := by
    intro i w hlt
    have hwork := s.sched.work_put i w
    change (s.sched.put i w).work + stageRank s.stage < s.sched.work + stageRank s.stage
    omega
  cases a with
  | destroy => cases ha
  | on a =>
    cases a with
    | client woken =>
      simp only [step] at hs
      split at hs
      · next i hpc =>
        rw [hpc] at hstage
        cases hstage
      · next hpc =>
        rw [hpc] at hstage
        cases hstage
      · next i hpc =>
        have hdown := h.down i
        rw [hpc] at hdown
        have hi := i.isLt
        split at hs
        · next w hw =>
          have hwork := s.sched.work_put i w
          rw [Worker.clientReturn_potential hw] at hwork
          unfold stopped at hs
          split at hs
          · obtain ⟨hnext, hstage'⟩ := stopOn_potential hs
            change s'.sched.work = (s.sched.put i w).work + 7 at hnext
            simp only [potential, hstage', hpc, stageRank]
            omega
          · cases hs
            simp only [potential, hpc]
            change (s.sched.put i w).work + (n - 0) < s.sched.work + (8 * (n - i.val) + n)
            omega
        · obtain ⟨w, hw, rfl⟩ := Option.map_eq_some_iff.1 hs
          exact hput i w ((hdown.2.1 rfl).1.clientStep_potential hw)
      · next i hpc =>
        have hi := i.isLt
        split at hs
        · cases hs
          unfold joined
          split <;> simp only [potential, goto, hpc, stageRank] <;> omega
        · cases hs
      · cases hs
    | worker i woken =>
      simp only [step] at hs
      split at hs
      · obtain ⟨t, ht, rfl⟩ := Option.map_eq_some_iff.1 hs
        obtain ⟨w, hw, rfl⟩ := Option.map_eq_some_iff.1 ht
        have hdown := h.down i
        refine hput i w ?_
        cases hpc : s.stage with
        | stopping k =>
          rw [hpc] at hdown
          rcases lt_trichotomy i k with hlt | heq | hlt
          · exact (hdown.1 hlt).1.step_potential hw
          · exact (hdown.2.1 heq).1.step_potential hw
          · have hopen := hdown.2.2 hlt
            exact Worker.step_potential hopen.sound (Worker.clientRank_wakeUp hopen.inv_at.client_ok woken) hw
        | joining k =>
          rw [hpc] at hdown
          exact hdown.1.1.step_potential hw
        | destroyed =>
          rw [hpc] at hdown
          exact hdown.1.1.step_potential hw
        | constructing k =>
          rw [hpc] at hstage
          cases hstage
        | live =>
          rw [hpc] at hstage
          cases hstage
      · cases hs
    | _ => cases ha

/-- a spurious wake-up raises it by 3; nothing else happens in the destructor -/
theorem spurious_potential (h : Inv as s) (hstage : s.stage.isUp = false) {a : Act n J} (ha : a.isThread = false)
    (hs : s.step a = some s') : s'.potential ≤ s.potential + 3 := by
  have hnotlive : s.stage ≠ .live := fun hlive => by
    rw [hlive] at hstage
    cases hstage
  cases a with
  | destroy =>
    simp only [step] at hs
    split at hs
    · next hlive _ => exact absurd hlive hnotlive
    · cases hs
  | on a =>
    cases a with
    | spurious i t =>
      simp only [step] at hs
      obtain ⟨t', ht, rfl⟩ := Option.map_eq_some_iff.1 hs
      obtain ⟨w, hw, rfl⟩ := Option.map_eq_some_iff.1 ht
      have hpot : w.potential ≤ (s.sched.workers i).potential + 3 := by
        have hdown := h.down i
        cases hpc : s.stage with
        | stopping k =>
          rw [hpc] at hdown
          rcases lt_trichotomy i k with hlt | heq | hlt
          · exact (Worker.closing_spurious (hdown.1 hlt).1 hw).2.2
          · exact (Worker.closing_spurious (hdown.2.1 heq).1 hw).2.2
          · exact Worker.spurious_potential (hdown.2.2 hlt) hw
        | joining k =>
          rw [hpc] at hdown
          exact (Worker.closing_spurious hdown.1.1 hw).2.2
        | destroyed =>
          rw [hpc] at hdown
          exact (Worker.closing_spurious hdown.1.1 hw).2.2
        | constructing k =>
          rw [hpc] at hstage
          cases hstage
        | live => exact absurd hpc hnotlive
      have hwork := s.sched.work_put i w
      change (s.sched.put i w).work + stageRank s.stage ≤ s.sched.work + stageRank s.stage + 3
      omega
    | submitJob j =>
      simp only [step] at hs
      cases hs
    | waitAllFinish =>
      simp only [step] at hs
      cases hs
    | _ => cases ha

/-- in the destructor some thread can take a step -/
theorem unstuck (h : Inv as s) (hstage : s.stage.isUp = false) (hopen : s.stage ≠ .destroyed) :
    ∃ (a : Act n J) (t : Lifetime n J), a.isThread = true ∧ s.step a = some t := by
  cases hpc : s.stage with
  | stopping i =>
    have hdown : ∀ k, Down (.stopping i) k (s.sched.workers k) := fun k => by
      have hk := h.down k
      rwa [hpc] at hk
    obtain ⟨hclosing, hne⟩ := (hdown i).2.1 rfl
    have hthread : ∀ k, s.hasThread k = true := fun k => by simp only [hasThread, hpc]
    rcases hclosing.unstuck hne with ⟨w, hw⟩ | ⟨hret, w, hw⟩ | ⟨w, hw⟩
    · obtain ⟨t, ht⟩ : ∃ t, (s.withSched (s.sched.put i w)).stopped i = some t := by
        unfold stopped
        split
        · next hnext =>
          -- nobody uses the next worker
          have hout := (hdown ⟨i.val + 1, hnext⟩).2.2 (Nat.lt_succ_self i.val)
          have hne' : (⟨i.val + 1, hnext⟩ : Fin n) ≠ i := fun heq => Nat.succ_ne_self i.val (congrArg Fin.val heq)
          refine stopOn_some ?_
          change ((s.sched.put i w).workers _).queue.pc .client = .idle
          rw [Scheduler.put_ne s.sched hne']
          exact Worker.clientOk_out hout.inv_at.client_ok
        · exact ⟨_, rfl⟩
      exact ⟨.on (.client fun _ => true), t, rfl, by simp only [step, hpc, hw]; exact ht⟩
    · exact ⟨.on (.client fun _ => true), _, rfl, by simp only [step, hpc, hret, hw]; rfl⟩
    · exact ⟨.on (.worker i fun _ => true), _, rfl, by simp only [step, hthread, Scheduler.step, hw]; rfl⟩
  | joining i =>
    have hdown := h.down i
    rw [hpc] at hdown
    by_cases hstop : (s.sched.workers i).pc = .stopped
    · exact ⟨.on (.client fun _ => true), _, rfl, by simp only [step, hpc, hstop]; rfl⟩
    · obtain ⟨w, hw⟩ := hdown.1.enabled hstop
      exact ⟨.on (.worker i fun _ => true), _, rfl, by simp only [step, hasThread, hpc, Scheduler.step, hw]; rfl⟩
  | destroyed => exact absurd hpc hopen
  | constructing k =>
    rw [hpc] at hstage
    cases hstage
  | live =>
    rw [hpc] at hstage
    cases hstage

/-- the destructor goes on -/
theorem step_down {a : Act n J} (hstage : s.stage.isUp = false) (hs : s.step a = some s') :
    s'.stage.isUp = false := by
  have hnotlive : s.stage ≠ .live := fun hlive => by
    rw [hlive] at hstage
    cases hstage
  have hstop : ∀ {t : Lifetime n J} {i : Fin n}, t.stopOn i = some s' → s'.stage.isUp = false := fun ht => by
    rw [(stopOn_potential ht).2]
    rfl
  cases a with
  | destroy =>
    simp only [step] at hs
    split at hs
    · exact hstop hs
    · cases hs
  | on a =>
    cases a with
    | client woken =>
      simp only [step] at hs
      split at hs
      · next i hpc =>
        rw [hpc] at hstage
        cases hstage
      · next hlive => exact absurd hlive hnotlive
      · split at hs
        · unfold stopped at hs
          split at hs
          · exact hstop hs
          · cases hs
            rfl
        · obtain ⟨w, -, rfl⟩ := Option.map_eq_some_iff.1 hs
          exact hstage
      · split at hs
        · cases hs
          unfold joined
          split <;> rfl
        · cases hs
      · cases hs
    | worker i woken =>
      simp only [step] at hs
      split at hs
      · obtain ⟨t, -, rfl⟩ := Option.map_eq_some_iff.1 hs
        exact hstage
      · cases hs
    | spurious i t =>
      simp only [step] at hs
      obtain ⟨t', -, rfl⟩ := Option.map_eq_some_iff.1 hs
      exact hstage
    | _ =>
      simp only [step] at hs
      cases hs

/-- **The destructor returns.** From every reachable state in the destructor: until it has returned, some thread can
always take a step, and under every schedule the threads take at most `17 * jobs + 66 * n` steps, and 3 more for every
spurious wake-up. -/
theorem destructor_returns (hr : run step (init : Lifetime n J) as = some s) (hstage : s.stage.isUp = false) :
    Waits step Act.isThread (fun t => t.stage = .destroyed) (17 * (jobs as).length + 66 * n) 3 s := by
  have hinv := inv_run hr
  have hbound : s.potential ≤ 17 * (jobs as).length + 66 * n := by
    have hwork := Scheduler.work_le hinv.sound hinv.submitted
    have hrank : stageRank s.stage ≤ 9 * n := by
      unfold stageRank
      split <;> omega
    unfold potential
    omega
  refine waits_of_potential (I := fun t => (∃ bs, Inv bs t) ∧ t.stage.isUp = false) (μ := potential) ?_ ?_ ?_ ?_
    ⟨⟨as, hinv⟩, hstage⟩ hbound
  · rintro t a u ⟨⟨bs, h⟩, hdown⟩ hs
    exact ⟨⟨bs ++ [a], inv_step h hs⟩, step_down hdown hs⟩
  · rintro t a u ⟨⟨bs, h⟩, hdown⟩ - hs ha
    exact step_potential h hdown ha hs
  · rintro t a u ⟨⟨bs, h⟩, hdown⟩ - hs ha
    exact spurious_potential h hdown ha hs
  · rintro t ⟨⟨bs, h⟩, hdown⟩ hopen
    obtain ⟨a, u, ha, hs⟩ := unstuck h hdown hopen
    exact ⟨a, u, ha, hs⟩

theorem destructor_returns_busy : ∃ s : Lifetime 1 ℕ, run step init (busyRun ++ [.destroy]) = some s ∧
    s.stage = .stopping 0 ∧ Waits step Act.isThread (fun t => t.stage = .destroyed) 100 3 s := by
  obtain ⟨s, hr, hstage⟩ : ∃ s : Lifetime 1 ℕ, run step init (busyRun ++ [.destroy]) = some s ∧ s.stage = .stopping 0 :=
    ⟨_, rfl, rfl⟩
  exact ⟨s, hr, hstage, destructor_returns hr (by rw [hstage]; rfl)⟩

/-! ## Jobs behind the close -/

omit [NeZero n] in
theorem quiet_put {i : Fin n} {w : Worker J} (h : (s.sched.workers i).Quiet w) (k : Fin n) :
    (s.sched.workers k).Quiet ((s.sched.put i w).workers k) := by
  by_cases hk : k = i
  · subst hk
    rw [Scheduler.put_self]
    exact h
  · rw [Scheduler.put_ne _ hk]
    exact Worker.Quiet.refl _

omit [NeZero n] in
theorem quiet_stopOn {i : Fin n} (hs : s.stopOn i = some s') (k : Fin n) :
    (s.sched.workers k).Quiet (s'.sched.workers k) := by
  obtain ⟨w, hw, rfl⟩ := Option.map_eq_some_iff.1 hs
  exact quiet_put (Worker.quiet_stop hw) k

/-- a step in the destructor is one of the worker's thread, or leaves it where it is -/
theorem step_quiet (h : Inv as s) (hstage : s.stage.isUp = false) {a : Act n J} (hs : s.step a = some s') (i : Fin n) :
    (∃ woken, (s.sched.workers i).step woken = some (s'.sched.workers i)) ∨
      (s.sched.workers i).Quiet (s'.sched.workers i) := by
  have hnotlive : s.stage ≠ .live := fun hlive => by
    rw [hlive] at hstage
    cases hstage
  cases a with
  | destroy =>
    simp only [step] at hs
    split at hs
    · exact .inr (quiet_stopOn hs i)
    · cases hs
  | on a =>
    cases a with
    | client woken =>
      simp only [step] at hs
      split at hs
      · cases hs
        exact .inr (Worker.Quiet.refl _)
      · next hlive => exact absurd hlive hnotlive
      · next k hpc =>
        have hdown := h.down k
        rw [hpc] at hdown
        split at hs
        · next w hw =>
          have hput := quiet_put (Worker.quiet_clientReturn hw) i
          unfold stopped at hs
          split at hs
          · exact .inr (hput.trans (quiet_stopOn hs i))
          · cases hs
            exact .inr hput
        · obtain ⟨w, hw, rfl⟩ := Option.map_eq_some_iff.1 hs
          exact .inr (quiet_put ((hdown.2.1 rfl).1.quiet_clientStep hw) i)
      · split at hs
        · cases hs
          exact .inr (Worker.Quiet.refl _)
        · cases hs
      · cases hs
    | worker k woken =>
      simp only [step] at hs
      split at hs
      · obtain ⟨t, ht, rfl⟩ := Option.map_eq_some_iff.1 hs
        obtain ⟨w, hw, rfl⟩ := Option.map_eq_some_iff.1 ht
        change (∃ woken, _ = some ((s.sched.put k w).workers i)) ∨ Worker.Quiet _ ((s.sched.put k w).workers i)
        by_cases hki : i = k
        · subst hki
          rw [Scheduler.put_self]
          exact .inl ⟨woken, hw⟩
        · rw [Scheduler.put_ne _ hki]
          exact .inr (Worker.Quiet.refl _)
      · cases hs
    | spurious k t =>
      simp only [step] at hs
      obtain ⟨t', ht, rfl⟩ := Option.map_eq_some_iff.1 hs
      obtain ⟨w, hw, rfl⟩ := Option.map_eq_some_iff.1 ht
      exact .inr (quiet_put (Worker.quiet_spurious hw) i)
    | _ =>
      simp only [step] at hs
      cases hs

/-- a worker's queue is closed in the destructor only -/
theorem Inv.down_of_closed (h : Inv as s) {i : Fin n} (hclosed : (s.sched.workers i).queue.closed = true) :
    s.stage.isUp = false := by
  cases hup : s.stage.isUp with
  | false => rfl
  | true =>
    rw [((h.up hup).worker i).opened] at hclosed
    cases hclosed

/-- **At most one job more.** Once `stop` has closed the queue of a worker, every continuation of the run starts at
most one more job on it, and none unless the thread was between `is_closed` and the call of a job. -/
theorem closed_starts (hr : run step (init : Lifetime n J) as = some s) {i : Fin n}
    (hclosed : (s.sched.workers i).queue.closed = true) {bs : List (Act n J)} {t : Lifetime n J}
    (hbs : run step s bs = some t) : (s.sched.workers i).started <+: (t.sched.workers i).started ∧
      (t.sched.workers i).started.length ≤
        (s.sched.workers i).started.length + Worker.slack (s.sched.workers i).pc := by
  have hall : (∃ cs, Inv cs t) ∧ (t.sched.workers i).queue.closed = true ∧
      (s.sched.workers i).started <+: (t.sched.workers i).started ∧
      (t.sched.workers i).started.length + Worker.slack (t.sched.workers i).pc ≤
        (s.sched.workers i).started.length + Worker.slack (s.sched.workers i).pc := by
    refine run_inv (I := fun t => (∃ cs, Inv cs t) ∧ (t.sched.workers i).queue.closed = true ∧
      (s.sched.workers i).started <+: (t.sched.workers i).started ∧
      (t.sched.workers i).started.length + Worker.slack (t.sched.workers i).pc ≤
        (s.sched.workers i).started.length + Worker.slack (s.sched.workers i).pc)
      ⟨⟨as, inv_run hr⟩, hclosed, List.prefix_refl _, le_rfl⟩ ?_ hbs
    rintro u a v ⟨⟨cs, h⟩, hc, hpre, hlen⟩ hs
    refine ⟨⟨cs ++ [a], inv_step h hs⟩, ?_⟩
    rcases step_quiet h (h.down_of_closed hc) hs i with ⟨woken, hstep⟩ | hquiet
    · have hsound := h.sound i
      have hle := Worker.closed_step_starts hsound hc hstep
      refine ⟨(Worker.step_move hsound hstep).frame.1.trans hc, ?_, hle.trans hlen⟩
      rcases (Worker.step_effect hstep).2 with ⟨hst, -⟩ | ⟨p, j, -, hst, -⟩ | ⟨p, j, -, hst, -⟩
      · rwa [hst]
      · rw [hst]
        exact hpre.trans (List.prefix_append _ _)
      · rwa [hst]
    · rw [hquiet.started, hquiet.pc]
      exact ⟨hquiet.closed hc, hpre, hlen⟩
  exact ⟨hall.2.2.1, le_trans (Nat.le_add_right _ _) hall.2.2.2⟩

/-- `close` comes between `is_closed` and the call of the job -/
def closeRun : List (Act 1 ℕ) := busyRun ++ .destroy :: clientSteps 2

theorem closed_starts_one : ∃ s t : Lifetime 1 ℕ, run step init closeRun = some s ∧
    run step s [.on (.worker 0 fun _ => true)] = some t ∧ (s.sched.workers 0).started = [] ∧
    (t.sched.workers 0).started = [7] ∧ (t.sched.workers 0).started.length ≤ 1 := by
  obtain ⟨s, hr, hclosed, t, ht, hs, hst, hpc⟩ : ∃ s : Lifetime 1 ℕ, run step init closeRun = some s ∧
      (s.sched.workers 0).queue.closed = true ∧ ∃ t, run step s [.on (.worker 0 fun _ => true)] = some t ∧
      (s.sched.workers 0).started = [] ∧ (t.sched.workers 0).started = [7] ∧
      Worker.slack (s.sched.workers 0).pc = 1 := ⟨_, rfl, rfl, _, rfl, rfl, rfl, rfl⟩
  refine ⟨s, t, hr, ht, hs, hst, ?_⟩
  have hle := (closed_starts hr hclosed ht).2
  rwa [hs, hpc] at hle

end Lifetime

end K23Search
