/-
The scheduler as its client sees it: for each worker the submitted jobs that have not finished, in order, of which the
first may be running. `submit_job` gives the job to the next worker, `wait` is the return of `wait_all_finish`.

Result:
- `refines`: every run of the scheduler (`Scheduler.step`) is a run of `Jobs.step`, with the queues, the running jobs
  and the next worker those of the scheduler's state.
-/
import K23Search.Concurrency.Scheduler

namespace K23Search

open K23Search.Lib

/-! ## Model -/

structure Jobs (n : ℕ) (J : Type) where
  queue : Fin n → List J
  running : Fin n → Bool
  current : Fin n

namespace Jobs

variable {n : ℕ} {J : Type} [NeZero n]

inductive Act (n : ℕ) (J : Type) where
  | submit (j : J)
  | start (i : Fin n)
  | finish (i : Fin n)
  | wait

def init : Jobs n J := ⟨fun _ => [], fun _ => false, Scheduler.first⟩

def submit (s : Jobs n J) (j : J) : Jobs n J :=
  { s with
    queue := Function.update s.queue s.current (s.queue s.current ++ [j])
    current := Scheduler.next s.current }

/-- worker `i` starts the job at the head of its queue -/
def start (s : Jobs n J) (i : Fin n) : Option (Jobs n J) :=
  if s.running i = false ∧ s.queue i ≠ [] then some { s with running := Function.update s.running i true } else none

def finish (s : Jobs n J) (i : Fin n) : Option (Jobs n J) :=
  if s.running i = true then
    some { s with
      queue := Function.update s.queue i (s.queue i).tail
      running := Function.update s.running i false }
  else none

/-- every job has finished -/
def Done (s : Jobs n J) : Prop := ∀ i, s.queue i = []

instance (s : Jobs n J) : Decidable s.Done := inferInstanceAs (Decidable (∀ i, s.queue i = []))

def step (s : Jobs n J) : Act n J → Option (Jobs n J)
  | .submit j => some (s.submit j)
  | .start i => s.start i
  | .finish i => s.finish i
  | .wait => if s.Done then some s else none

/-! ## What the operations do -/

section Operations

variable {s s' : Jobs n J} {i : Fin n}

omit [NeZero n] in
theorem start_some (h : s.start i = some s') :
    s.running i = false ∧ s.queue i ≠ [] ∧ s' = { s with running := Function.update s.running i true } := by
  unfold start at h
  split at h
  · next hok =>
    cases h
    exact ⟨hok.1, hok.2, rfl⟩
  · cases h

omit [NeZero n] in
theorem finish_some (h : s.finish i = some s') : s.running i = true ∧
    s' = { s with
      queue := Function.update s.queue i (s.queue i).tail
      running := Function.update s.running i false } := by
  unfold finish at h
  split at h
  · next hrun =>
    cases h
    exact ⟨hrun, rfl⟩
  · cases h

omit [NeZero n] in
theorem finish_subset (h : s.finish i = some s') (k : Fin n) : s'.queue k ⊆ s.queue k := by
  obtain ⟨-, rfl⟩ := finish_some h
  by_cases hk : k = i
  · subst hk
    simp only [Function.update_self]
    exact List.tail_subset _
  · simp only [Function.update_of_ne hk]
    exact List.Subset.refl _

/-- submitting a job makes one queue longer -/
theorem submit_queue (s : Jobs n J) (j : J) (k : Fin n) :
    (k ≠ s.current ∧ (s.submit j).queue k = s.queue k) ∨ (k = s.current ∧ (s.submit j).queue k = s.queue k ++ [j]) := by
  by_cases hk : k = s.current
  · subst hk
    exact .inr ⟨rfl, Function.update_self ..⟩
  · exact .inl ⟨hk, Function.update_of_ne hk ..⟩

/-- the jobs in the queues after a submission -/
theorem mem_submit {j j' : J} : (∃ k, j' ∈ (s.submit j).queue k) ↔ (∃ k, j' ∈ s.queue k) ∨ j' = j := by
  constructor
  · intro h
    obtain ⟨k, hk⟩ := h
    rcases submit_queue s j k with ⟨-, heq⟩ | ⟨-, heq⟩
    · exact .inl ⟨k, heq ▸ hk⟩
    · rw [heq, List.mem_append, List.mem_singleton] at hk
      exact hk.imp_left fun hk => ⟨k, hk⟩
  · intro h
    rcases h with ⟨k, hk⟩ | rfl
    · rcases submit_queue s j k with ⟨-, heq⟩ | ⟨-, heq⟩
      · exact ⟨k, heq ▸ hk⟩
      · exact ⟨k, by rw [heq]; exact List.mem_append_left _ hk⟩
    · refine ⟨s.current, ?_⟩
      simp only [submit, Function.update_self]
      exact List.mem_append_right _ (List.mem_singleton_self _)

end Operations

/-! ## Refinement -/

/-- what a state of the scheduler is to its client -/
def abs (s : Scheduler n J) : Jobs n J where
  queue i := (s.workers i).submitted.drop (s.workers i).finished.length
  running i := decide ((s.workers i).finished.length < (s.workers i).started.length)
  current := s.upcoming

/-- what a step of the scheduler is to its client -/
def actOf (s : Scheduler n J) (a : Scheduler.Act n J) : List (Act n J) :=
  match a, s.step a with
  | .submitJob j, some _ => [.submit j]
  | .client _, some s' => if s.client ≠ .idle ∧ s.client ≠ .submitting ∧ s'.client = .idle then [.wait] else []
  | .worker i _, some s' =>
    if (s.workers i).started.length < (s'.workers i).started.length then [.start i]
    else if (s.workers i).finished.length < (s'.workers i).finished.length then [.finish i]
    else []
  | _, _ => []

variable {s s' : Scheduler n J} {as : List (Scheduler.Act n J)}

/-- a worker that is put back with the same records changes nothing -/
theorem abs_put {i : Fin n} {w : Worker J} (hw : w.submitted = (s.workers i).submitted ∧
    w.started = (s.workers i).started ∧ w.finished = (s.workers i).finished) : abs (s.put i w) = abs s := by
  obtain ⟨hsub, hstart, hfin⟩ := hw
  have hworkers : ∀ k, ((s.put i w).workers k).submitted = (s.workers k).submitted ∧
      ((s.put i w).workers k).started = (s.workers k).started ∧
      ((s.put i w).workers k).finished = (s.workers k).finished := by
    intro k
    by_cases hk : k = i
    · subst hk
      rw [Scheduler.put_self]
      exact ⟨hsub, hstart, hfin⟩
    · rw [Scheduler.put_ne s hk]
      exact ⟨rfl, rfl, rfl⟩
  simp only [abs, hworkers]
  rfl

theorem abs_goto {c : ClientPc n} (hc : (s.goto c).upcoming = s.upcoming) : abs (s.goto c) = abs s := by
  simp only [abs, hc]
  rfl

/-- the jobs of worker `i` when it has started or finished one -/
theorem abs_worker {i : Fin n} {w : Worker J} (hsub : w.submitted = (s.workers i).submitted) :
    abs (s.put i w) = { abs s with
      queue := Function.update (abs s).queue i (w.submitted.drop w.finished.length)
      running := Function.update (abs s).running i (decide (w.finished.length < w.started.length)) } := by
  have hother : ∀ {V : Type} (f : Worker J → V), (fun k => f ((s.put i w).workers k)) =
      Function.update (fun k => f (s.workers k)) i (f w) := by
    intro V f
    funext k
    by_cases hk : k = i
    · subst hk
      simp
    · simp [Scheduler.put_ne s hk, Function.update_of_ne hk]
  simp only [abs, Jobs.mk.injEq]
  exact ⟨hother fun w => w.submitted.drop w.finished.length,
    hother fun w => decide (w.finished.length < w.started.length), rfl⟩

theorem refines_submit (h : Scheduler.Inv as s) {j : J} (hs : s.step (.submitJob j) = some s') :
    (abs s).submit j = abs s' := by
  simp only [Scheduler.step] at hs
  split at hs
  · next hc =>
    obtain ⟨w, hw, rfl⟩ := Option.map_eq_some_iff.1 hs
    obtain ⟨hsub, hstart, hfin⟩ := Worker.enqueue_records hw
    have hcur : s.upcoming = s.currentWorker := by rw [Scheduler.upcoming, hc]
    have hlen : (s.workers s.currentWorker).finished.length ≤ (s.workers s.currentWorker).submitted.length :=
      (h.worker s.currentWorker).finished_order.length_le
    have hqueue : ∀ k, ((s.put s.currentWorker w).workers k).submitted.drop
        ((s.put s.currentWorker w).workers k).finished.length =
        Function.update (abs s).queue s.currentWorker ((abs s).queue s.currentWorker ++ [j]) k := by
      intro k
      by_cases hk : k = s.currentWorker
      · subst hk
        rw [Scheduler.put_self, Function.update_self, hsub, hfin, List.drop_append_of_le_length hlen]
        rfl
      · rw [Scheduler.put_ne s hk, Function.update_of_ne hk]
        rfl
    have hrun : ∀ k, decide (((s.put s.currentWorker w).workers k).finished.length <
        ((s.put s.currentWorker w).workers k).started.length) = (abs s).running k := by
      intro k
      by_cases hk : k = s.currentWorker
      · subst hk
        rw [Scheduler.put_self, hstart, hfin]
        rfl
      · rw [Scheduler.put_ne s hk]
        rfl
    have habs : (abs s).current = s.currentWorker := hcur
    simp only [submit, habs]
    exact Jobs.mk.injEq .. |>.mpr ⟨(funext hqueue).symm, (funext hrun).symm, rfl⟩
  · cases hs

theorem refines_worker (h : Scheduler.Inv as s) {i : Fin n} {woken : Party → Bool}
    (hs : s.step (.worker i woken) = some s') : run step (abs s) (actOf s (.worker i woken)) = some (abs s') := by
  simp only [actOf, hs]
  obtain ⟨w, hw, rfl⟩ := Option.map_eq_some_iff.1 hs
  obtain ⟨hsub, heff⟩ := Worker.step_effect hw
  rw [Scheduler.put_self]
  rcases heff with ⟨hstart, hfin⟩ | ⟨p, j, hpc, hstart, hfin⟩ | ⟨p, j, hpc, hstart, hfin⟩
  · simp only [hstart, hfin, lt_irrefl, if_false]
    rw [abs_put ⟨hsub, hstart, hfin⟩]
    rfl
  · obtain ⟨heq, hlt⟩ := (h.worker i).at_ready hpc
    have hidle : (abs s).running i = false := by simp [abs, heq]
    have hne : (abs s).queue i ≠ [] := by
      simp only [abs, ne_eq, List.drop_eq_nil_iff]
      omega
    simp only [hstart, List.length_append, List.length_singleton, Nat.lt_succ_self, if_true, run, step, start,
      if_pos (And.intro hidle hne), Option.bind_some]
    rw [abs_worker hsub, hsub, hfin, hstart, heq]
    simp [abs]
  · have heq := (h.worker i).at_running hpc
    have hrun : (abs s).running i = true := by simp [abs, heq]
    simp only [hstart, hfin, lt_irrefl, if_false, List.length_append, List.length_singleton, Nat.lt_succ_self, if_true,
      run, step, finish, hrun, Option.bind_some]
    rw [abs_worker hsub, hsub, hfin, hstart, heq]
    simp [abs, List.tail_drop]

theorem abs_waitOn {i : Fin n} (hc : s.client ≠ .submitting) (hs : s.waitOn i = some s') : abs s' = abs s := by
  obtain ⟨w, hw, rfl⟩ := Option.map_eq_some_iff.1 hs
  have hcur : ((s.put i w).goto (.waiting i)).upcoming = (s.put i w).upcoming := by
    change s.currentWorker = s.upcoming
    unfold Scheduler.upcoming
    split
    · next hsub => exact absurd hsub hc
    · rfl
  rw [abs_goto hcur, abs_put (Worker.waitDone_records hw)]

theorem refines_client (h : Scheduler.Inv as s) {woken : Party → Bool} (hs : s.step (.client woken) = some s') :
    run step (abs s) (actOf s (.client woken)) = some (abs s') := by
  have hs₀ := hs
  simp only [actOf, hs]
  simp only [Scheduler.step] at hs
  split at hs
  · cases hs
  · next hc =>
    rw [if_neg (fun hne => hne.2.1 hc)]
    refine congrArg some ?_
    split at hs
    · next w hw =>
      cases hs
      have habs : abs ((s.advance.put s.currentWorker w).goto .idle) = abs (s.put s.currentWorker w) := by
        simp only [abs]
        refine Jobs.mk.injEq .. |>.mpr ⟨rfl, rfl, ?_⟩
        change Scheduler.next s.currentWorker = s.upcoming
        rw [Scheduler.upcoming, hc]
      rw [habs, abs_put (Worker.clientReturn_records hw)]
    · obtain ⟨w, hw, rfl⟩ := Option.map_eq_some_iff.1 hs
      rw [abs_put (Worker.clientStep_records hw)]
  · next i hc =>
    have hsub : s.client ≠ .submitting := by simp [hc]
    split at hs
    · next w hw =>
      have hput := abs_put (Worker.clientReturn_records hw)
      unfold Scheduler.waited at hs
      split at hs
      · have hclient : s'.client ≠ .idle := by
          obtain ⟨v, -, rfl⟩ := Option.map_eq_some_iff.1 hs
          simp [Scheduler.goto]
        rw [if_neg (fun hne => hclient hne.2.2), abs_waitOn (s := s.put i w) hsub hs, hput]
        rfl
      · cases hs
        rw [if_pos ⟨by simp [hc], hsub, rfl⟩]
        have hcur : ((s.put i w).goto .idle).upcoming = (s.put i w).upcoming := by
          change s.currentWorker = s.upcoming
          rw [Scheduler.upcoming, hc]
        have habs : abs ((s.put i w).goto .idle) = abs s := by rw [abs_goto hcur, hput]
        -- nothing is left to run
        have hdone : (abs s).Done := by
          rw [← habs]
          intro k
          simp only [abs]
          rw [Scheduler.all_finished h hc hs₀ rfl k, List.drop_length]
        rw [habs]
        simp only [run, step, if_pos hdone, Option.bind_some]
    · obtain ⟨w, hw, rfl⟩ := Option.map_eq_some_iff.1 hs
      have hclient : (s.put i w).client ≠ .idle := by
        change s.client ≠ .idle
        simp [hc]
      rw [if_neg (fun hne => hclient hne.2.2), abs_put (Worker.clientStep_records hw)]
      rfl

theorem refines_step (h : Scheduler.Inv as s) {a : Scheduler.Act n J} (hs : s.step a = some s') :
    run step (abs s) (actOf s a) = some (abs s') := by
  cases a with
  | submitJob j =>
    simp only [actOf, hs, run, step, Option.bind_some]
    rw [refines_submit h hs]
  | waitAllFinish =>
    simp only [actOf, run]
    simp only [Scheduler.step] at hs
    split at hs
    · next hc => rw [abs_waitOn (by simp [hc]) hs]
    · cases hs
  | client woken => exact refines_client h hs
  | worker i woken => exact refines_worker h hs
  | spurious i t =>
    simp only [actOf, run]
    obtain ⟨w, hw, rfl⟩ := Option.map_eq_some_iff.1 hs
    rw [abs_put (Worker.spurious_records hw)]

/-- **Refinement.** Every run of the scheduler is, to its client, a run of `Jobs`. -/
theorem refines (hr : run Scheduler.step (Scheduler.init : Scheduler n J) as = some s) :
    ∃ bs, run step (init : Jobs n J) bs = some (abs s) :=
  run_simulation (I := fun s => ∃ as, Scheduler.Inv as s) abs actOf
    ⟨[], Scheduler.free_init.inv rfl⟩ (fun _ _ _ ⟨_, h⟩ hs => ⟨_, Scheduler.inv_step h hs⟩)
    (fun _ _ _ ⟨_, h⟩ hs => refines_step h hs) hr

end Jobs

end K23Search
