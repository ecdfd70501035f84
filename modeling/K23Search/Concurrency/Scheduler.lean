/-
`qs::scheduler` (include/qs/scheduler.hpp, src/lib/scheduler.cpp): `n ≥ 1` workers, and the one thread that calls
`submit_job` and `wait_all_finish` (`client`). The scheduler has been constructed and is not stopped. An action is a
call of the client, a step of the client in its call, a step of a worker's thread or a spurious wake-up; all orders of
them are runs.

Results, for every run:
- `barrier`: each worker starts the jobs it was dealt, in order, each at most once; when `wait_all_finish` returns, all
  jobs submitted before have finished; while the client is in it, a blocked worker has an empty queue.

Witness: `barrier_two_workers`.
-/
import K23Search.Concurrency.Worker
import K23Search.Lib.Run
import Mathlib.Algebra.GroupWithZero.Nat
import Mathlib.Data.List.FinRange
import Mathlib.Data.List.Perm.Basic

namespace K23Search

open K23Search.Lib
open scoped List

/-! ## Model -/

inductive ClientPc (n : ℕ) where
  | idle
  /-- in `workers[current_worker].enqueue(j)` -/
  | submitting
  /-- in `wait_done` of this worker -/
  | waiting (i : Fin n)
deriving DecidableEq, Repr

structure Scheduler (n : ℕ) (J : Type) where
  workers : Fin n → Worker J
  currentWorker : Fin n
  client : ClientPc n

namespace Scheduler

variable {n : ℕ} {J : Type}

inductive Act (n : ℕ) (J : Type) where
  | submitJob (j : J)
  | waitAllFinish
  /-- a step of the client in its call, with the threads a signal wakes -/
  | client (woken : Party → Bool)
  | worker (i : Fin n) (woken : Party → Bool)
  | spurious (i : Fin n) (t : Party)

def put (s : Scheduler n J) (i : Fin n) (w : Worker J) : Scheduler n J :=
  { s with workers := Function.update s.workers i w }

def goto (s : Scheduler n J) (client : ClientPc n) : Scheduler n J := { s with client := client }

/-- the loop of `wait_all_finish` comes to worker `i` -/
def waitOn (s : Scheduler n J) (i : Fin n) : Option (Scheduler n J) :=
  (s.workers i).waitDone.map fun w => (s.put i w).goto (.waiting i)

/-- the jobs that a run submits -/
def submissions : List (Act n J) → List J
  | [] => []
  | .submitJob j :: as => j :: submissions as
  | _ :: as => submissions as

/-- the jobs at the positions of worker `i`: `i`, `i + n`, `i + 2n`, … -/
def dealt (i : Fin n) (js : List J) : List J := (js.zipIdx.filter fun p => p.2 % n = i.val).map Prod.fst

theorem submissions_append (as bs : List (Act n J)) : submissions (as ++ bs) = submissions as ++ submissions bs := by
  induction as with
  | nil => rfl
  | cons a as ih => cases a <;> simp [submissions, ih]

theorem dealt_snoc (i : Fin n) (js : List J) (j : J) :
    dealt i (js ++ [j]) = dealt i js ++ if js.length % n = i.val then [j] else [] := by
  unfold dealt
  rw [List.zipIdx_append, List.filter_append, List.map_append]
  congr 1
  by_cases h : js.length % n = i.val <;> simp [h]

/-- the workers' shares make up the jobs -/
theorem dealt_perm [NeZero n] (js : List J) : ((List.finRange n).flatMap fun i => dealt i js).Perm js := by
  induction js using List.reverseRecOn with
  | nil => simp [dealt]
  | append_singleton js j ih =>
    have hlt : js.length % n < n := Nat.mod_lt _ (Nat.pos_of_ne_zero (NeZero.ne n))
    obtain ⟨as, bs, hsplit⟩ := List.append_of_mem (List.mem_finRange (⟨js.length % n, hlt⟩ : Fin n))
    have hnd := List.nodup_finRange n
    rw [hsplit] at hnd
    have hmid := List.nodup_cons.1 (List.nodup_middle.1 hnd)
    -- the new job goes to one worker
    have hone : ((List.finRange n).flatMap fun i => if js.length % n = i.val then [j] else []) = [j] := by
      have hrest : ∀ l ⊆ as ++ bs, (l.flatMap fun i => if js.length % n = i.val then [j] else []) = [] := by
        intro l hl
        refine List.flatMap_eq_nil_iff.2 fun i hi => if_neg fun heq => ?_
        exact hmid.1 (by rw [show (⟨js.length % n, hlt⟩ : Fin n) = i from Fin.ext heq]; exact hl hi)
      rw [hsplit, List.flatMap_append, List.flatMap_cons, hrest as (List.subset_append_left _ _),
        hrest bs (List.subset_append_right _ _), if_pos rfl]
      rfl
    calc ((List.finRange n).flatMap fun i => dealt i (js ++ [j]))
        = (List.finRange n).flatMap (fun i => dealt i js ++ if js.length % n = i.val then [j] else []) := by
          simp only [dealt_snoc]
      _ ~ ((List.finRange n).flatMap fun i => dealt i js) ++
          ((List.finRange n).flatMap fun i => if js.length % n = i.val then [j] else []) :=
        (List.flatMap_append_perm _ _ _).symm
      _ ~ js ++ [j] := by
        rw [hone]
        exact ih.append_right [j]

@[simp] theorem put_self (s : Scheduler n J) (i : Fin n) (w : Worker J) : (s.put i w).workers i = w :=
  Function.update_self ..

theorem put_ne (s : Scheduler n J) {i k : Fin n} (h : k ≠ i) (w : Worker J) : (s.put i w).workers k = s.workers k :=
  Function.update_of_ne h ..

variable [NeZero n]

/-- `(current_worker + 1) % workers.get_size()` -/
def next (i : Fin n) : Fin n := ⟨(i.val + 1) % n, Nat.mod_lt _ (Nat.pos_of_ne_zero (NeZero.ne n))⟩

def first : Fin n := ⟨0, Nat.pos_of_ne_zero (NeZero.ne n)⟩

/-- `current_worker` moves on -/
def advance (s : Scheduler n J) : Scheduler n J := { s with currentWorker := next s.currentWorker }

def init : Scheduler n J := ⟨fun _ => Worker.init, first, .idle⟩

/-- `wait_done` of worker `i` has returned -/
def waited (s : Scheduler n J) (i : Fin n) : Option (Scheduler n J) :=
  if h : i.val + 1 < n then s.waitOn ⟨i.val + 1, h⟩ else some (s.goto .idle)

def step (s : Scheduler n J) : Act n J → Option (Scheduler n J)
  | .submitJob j =>
    match s.client with
    | .idle => ((s.workers s.currentWorker).enqueue j).map fun w =>
        (s.put s.currentWorker w).goto .submitting
    | _ => none
  | .waitAllFinish =>
    match s.client with
    | .idle => s.waitOn first
    | _ => none
  | .client woken =>
    match s.client with
    | .idle => none
    | .submitting =>
      match (s.workers s.currentWorker).clientReturn with
      | some w => some ((s.advance.put s.currentWorker w).goto .idle)
      | none => ((s.workers s.currentWorker).clientStep woken).map (s.put s.currentWorker)
    | .waiting i =>
      match (s.workers i).clientReturn with
      | some w => (s.put i w).waited i
      | none => ((s.workers i).clientStep woken).map (s.put i)
  | .worker i woken => ((s.workers i).step woken).map (s.put i)
  | .spurious i t => ((s.workers i).spurious t).map (s.put i)

/-! ## The invariant -/

/-- what the client is doing with worker `i` -/
def roleOf (s : Scheduler n J) (i : Fin n) : Worker.Role :=
  match s.client with
  | .idle => .out
  | .submitting => if i = s.currentWorker then .submit else .out
  | .waiting k => if i = k then .wait else .out

/-- the worker that gets the next job -/
def upcoming (s : Scheduler n J) : Fin n :=
  match s.client with
  | .submitting => next s.currentWorker
  | _ => s.currentWorker

structure Inv (as : List (Act n J)) (s : Scheduler n J) : Prop where
  worker : ∀ i, (s.workers i).Inv (s.roleOf i)
  submitted : ∀ i, (s.workers i).submitted = dealt i (submissions as)
  upcoming_eq : (s.upcoming).val = (submissions as).length % n
  /-- the workers that the loop of `wait_all_finish` has passed have finished all their jobs -/
  passed : ∀ k, s.client = .waiting k → ∀ i < k, (s.workers i).finished = (s.workers i).submitted

/-- no call of the client is open -/
structure Free (as : List (Act n J)) (s : Scheduler n J) : Prop where
  worker : ∀ i, (s.workers i).Inv .out
  submitted : ∀ i, (s.workers i).submitted = dealt i (submissions as)
  current_eq : s.currentWorker.val = (submissions as).length % n

theorem free_init : Free [] (init : Scheduler n J) :=
  ⟨fun _ => Worker.inv_init, fun _ => rfl, (Nat.zero_mod n).symm⟩

variable {as : List (Act n J)} {s s' : Scheduler n J}

theorem Free.inv (h : Free as s) (hc : s.client = .idle) : Inv as s where
  worker i := by rw [roleOf, hc]; exact h.worker i
  submitted := h.submitted
  upcoming_eq := by rw [upcoming, hc]; exact h.current_eq
  passed := by simp [hc]

theorem Inv.free (h : Inv as s) (hc : s.client = .idle) : Free as s where
  worker i := by have := h.worker i; rwa [roleOf, hc] at this
  submitted := h.submitted
  current_eq := by have := h.upcoming_eq; rwa [upcoming, hc] at this

/-- the client's call on worker `i` has returned, and the others are not used by it -/
theorem Inv.returned (h : Inv as s) {i : Fin n} {w : Worker J} (hw : (s.workers i).clientReturn = some w)
    (hrole : ∀ k, k ≠ i → s.roleOf k = .out) {t : Scheduler n J} (ht : t.workers = s.workers)
    (hc : t.currentWorker.val = (submissions as).length % n) : Free as (t.put i w) := by
  refine ⟨fun k => ?_, fun k => ?_, hc⟩
  · by_cases hk : k = i
    · subst hk
      rw [put_self]
      exact (Worker.inv_clientReturn (h.worker k) hw).1
    · rw [put_ne t hk, ht, ← hrole k hk]
      exact h.worker k
  · by_cases hk : k = i
    · subst hk
      rw [put_self, (Worker.clientReturn_records hw).1]
      exact h.submitted k
    · rw [put_ne t hk, ht]
      exact h.submitted k

theorem Free.waitOn (h : Free as s) {i : Fin n} (hpassed : ∀ k < i, (s.workers k).finished = (s.workers k).submitted)
    (hs : s.waitOn i = some s') : Inv as s' := by
  obtain ⟨w, hw, rfl⟩ := Option.map_eq_some_iff.1 hs
  obtain ⟨hsub, -⟩ := Worker.waitDone_records hw
  refine ⟨fun k => ?_, fun k => ?_, h.current_eq, fun k hk l hl => ?_⟩
  · change ((s.put i w).workers k).Inv (if k = i then .wait else .out)
    by_cases hk : k = i
    · subst hk
      rw [if_pos rfl, put_self]
      exact Worker.inv_waitDone (h.worker k) hw
    · rw [if_neg hk, put_ne s hk]
      exact h.worker k
  · change ((s.put i w).workers k).submitted = _
    by_cases hk : k = i
    · subst hk
      rw [put_self, hsub]
      exact h.submitted k
    · rw [put_ne s hk]
      exact h.submitted k
  · cases hk
    change ((s.put i w).workers l).finished = ((s.put i w).workers l).submitted
    rw [put_ne s (ne_of_lt hl)]
    exact hpassed l hl

theorem Free.submit (h : Free as s) {j : J} {w : Worker J} (hw : (s.workers s.currentWorker).enqueue j = some w) :
    Inv (as ++ [.submitJob j]) ((s.put s.currentWorker w).goto .submitting) := by
  have hsub : submissions (as ++ [Act.submitJob j]) = submissions as ++ [j] := submissions_append ..
  refine ⟨fun k => ?_, fun k => ?_, ?_, nofun⟩
  · change ((s.put s.currentWorker w).workers k).Inv (if k = s.currentWorker then .submit else .out)
    by_cases hk : k = s.currentWorker
    · subst hk
      rw [if_pos rfl, put_self]
      exact Worker.inv_enqueue (h.worker _) hw
    · rw [if_neg hk, put_ne s hk]
      exact h.worker k
  · change ((s.put s.currentWorker w).workers k).submitted = _
    rw [hsub, dealt_snoc, ← h.current_eq]
    by_cases hk : k = s.currentWorker
    · subst hk
      rw [put_self, (Worker.enqueue_records hw).1, h.submitted, if_pos rfl]
    · rw [put_ne s hk, h.submitted, if_neg (fun heq => hk (Fin.ext heq.symm)), List.append_nil]
  · change (s.currentWorker.val + 1) % n = _
    rw [hsub, List.length_append, h.current_eq, Nat.mod_add_mod]
    rfl

/-- a step at worker `i` that neither submits nor ends a call -/
theorem Inv.put (h : Inv as s) {a : Act n J} (ha : submissions [a] = []) {i : Fin n} {w : Worker J}
    (hw : w.Inv (s.roleOf i)) (hsub : w.submitted = (s.workers i).submitted)
    (hfin : (s.workers i).finished <+: w.finished) : Inv (as ++ [a]) (s.put i w) := by
  have hnone : submissions (as ++ [a]) = submissions as := by rw [submissions_append, ha, List.append_nil]
  refine ⟨fun k => ?_, fun k => ?_, by rw [hnone]; exact h.upcoming_eq, fun k hk l hl => ?_⟩
  · change ((s.put i w).workers k).Inv (s.roleOf k)
    by_cases hk : k = i
    · subst hk
      rwa [put_self]
    · rw [put_ne s hk]
      exact h.worker k
  · rw [hnone]
    by_cases hk : k = i
    · subst hk
      rw [put_self, hsub]
      exact h.submitted k
    · rw [put_ne s hk]
      exact h.submitted k
  · by_cases hli : l = i
    · -- what has finished stays so, and nothing else can finish
      subst hli
      have hpast := h.passed k hk l hl
      rw [put_self, hsub]
      refine (hw.finished_order.trans (by rw [hsub])).eq_of_length_le ?_
      rw [← hpast]
      exact hfin.length_le
    · rw [put_ne s hli]
      exact h.passed k hk l hl

/-- `wait_done` of worker `i` returns: this worker has finished its jobs too -/
theorem Inv.wait_return (h : Inv as s) {i : Fin n} (hc : s.client = .waiting i) {w : Worker J}
    (hw : (s.workers i).clientReturn = some w) : Free as (s.put i w) ∧
    ∀ k : Fin n, k.val ≤ i.val → ((s.put i w).workers k).finished = ((s.put i w).workers k).submitted := by
  have hcur := h.upcoming_eq
  rw [upcoming, hc] at hcur
  have hfree : Free as (s.put i w) := h.returned hw (fun k hk => by rw [roleOf, hc]; exact if_neg hk) rfl hcur
  refine ⟨hfree, fun k hk => ?_⟩
  by_cases hki : k = i
  · subst hki
    have hrole : s.roleOf k = .wait := by rw [roleOf, hc]; exact if_pos rfl
    have hout := hfree.worker k
    rw [put_self] at hout ⊢
    exact hout.drained ((Worker.inv_clientReturn (h.worker k) hw).2 hrole)
  · rw [put_ne s hki]
    exact h.passed i hc k (lt_of_le_of_ne hk hki)

omit [NeZero n] in
theorem Free.snoc (h : Free as s) {a : Act n J} (ha : submissions [a] = []) : Free (as ++ [a]) s :=
  ⟨h.worker, by rw [submissions_append, ha, List.append_nil]; exact h.submitted,
    by rw [submissions_append, ha, List.append_nil]; exact h.current_eq⟩

theorem Free.idle (h : Free as s) : Inv as (s.goto .idle) :=
  Free.inv (s := s.goto .idle) ⟨h.worker, h.submitted, h.current_eq⟩ rfl

theorem inv_step {a : Act n J} (h : Inv as s) (hs : s.step a = some s') : Inv (as ++ [a]) s' := by
  cases a with
  | submitJob j =>
    simp only [step] at hs
    split at hs
    · next hc =>
      obtain ⟨w, hw, rfl⟩ := Option.map_eq_some_iff.1 hs
      exact (h.free hc).submit hw
    · cases hs
  | waitAllFinish =>
    simp only [step] at hs
    split at hs
    · next hc => exact ((h.free hc).snoc rfl).waitOn (fun k hk => absurd hk (Nat.not_lt_zero _)) hs
    · cases hs
  | client woken =>
    simp only [step] at hs
    split at hs
    · cases hs
    · next hc =>
      split at hs
      · next w hw =>
        cases hs
        have hcur := h.upcoming_eq
        rw [upcoming, hc] at hcur
        refine (Free.snoc ?_ rfl).idle
        exact h.returned hw (fun k hk => by rw [roleOf, hc]; exact if_neg hk) (t := s.advance) rfl hcur
      · obtain ⟨w, hw, rfl⟩ := Option.map_eq_some_iff.1 hs
        obtain ⟨hsub, -, hfin⟩ := Worker.clientStep_records hw
        exact h.put rfl (Worker.inv_clientStep (h.worker _) hw) hsub (by rw [hfin])
    · next i hc =>
      split at hs
      · next w hw =>
        obtain ⟨hfree, hall⟩ := h.wait_return hc hw
        have hfree := hfree.snoc (a := .client woken) rfl
        unfold waited at hs
        split at hs
        · exact hfree.waitOn (fun k hk => hall k (Nat.le_of_lt_succ hk)) hs
        · cases hs
          exact hfree.idle
      · obtain ⟨w, hw, rfl⟩ := Option.map_eq_some_iff.1 hs
        obtain ⟨hsub, -, hfin⟩ := Worker.clientStep_records hw
        exact h.put rfl (Worker.inv_clientStep (h.worker _) hw) hsub (by rw [hfin])
  | worker i woken =>
    obtain ⟨w, hw, rfl⟩ := Option.map_eq_some_iff.1 hs
    obtain ⟨hsub, heff⟩ := Worker.step_effect hw
    refine h.put rfl (Worker.inv_step (h.worker _) hw) hsub ?_
    rcases heff with ⟨-, hfin⟩ | ⟨p, j, -, -, hfin⟩ | ⟨p, j, -, -, hfin⟩
    · rw [hfin]
    · rw [hfin]
    · rw [hfin]
      exact List.prefix_append _ _
  | spurious i t =>
    obtain ⟨w, hw, rfl⟩ := Option.map_eq_some_iff.1 hs
    obtain ⟨hsub, -, hfin⟩ := Worker.spurious_records hw
    exact h.put rfl (Worker.inv_spurious (h.worker _) hw) hsub (by rw [hfin])

theorem inv_run (hr : run step (init : Scheduler n J) as = some s) : Inv as s :=
  run_induction (G := fun _ _ _ => True) (free_init.inv rfl) (fun _ _ _ _ _ _ h hs => inv_step h hs)
    (meets_true step init as) hr

/-- the step at which `wait_all_finish` returns -/
theorem all_finished (h : Inv as s) {woken : Party → Bool} {k : Fin n} (hc : s.client = .waiting k)
    (hs : s.step (.client woken) = some s') (hc' : s'.client = .idle) (i : Fin n) :
    (s'.workers i).finished = (s'.workers i).submitted := by
  simp only [step, hc] at hs
  split at hs
  · next w hw =>
    obtain ⟨-, hall⟩ := h.wait_return hc hw
    unfold waited at hs
    split at hs
    · obtain ⟨v, -, rfl⟩ := Option.map_eq_some_iff.1 hs
      cases hc'
    · next hlast =>
      cases hs
      exact hall i (by have := i.isLt; omega)
  · obtain ⟨w, -, rfl⟩ := Option.map_eq_some_iff.1 hs
    exact absurd (hc.symm.trans hc') nofun

/-- **Barrier.** In every run: each worker starts the jobs it was dealt (every `n`-th one), in order and each at most
once, and finishes them in that order; at every step at which `wait_all_finish` returns, each worker has finished
exactly the jobs it was dealt, which together are the jobs submitted; and while the client is in `wait_all_finish`, a
worker that is blocked on the condition variable has an empty queue. -/
theorem barrier (hr : run step (init : Scheduler n J) as = some s) :
    (∀ i, (s.workers i).started <+: dealt i (submissions as) ∧ (s.workers i).finished <+: (s.workers i).started) ∧
    (∀ k woken s', s.client = .waiting k → s.step (.client woken) = some s' → s'.client = .idle →
      (∀ i, (s'.workers i).finished = dealt i (submissions as)) ∧
      ((List.finRange n).flatMap fun i => (s'.workers i).finished).Perm (submissions as)) ∧
    (∀ k i, s.client = .waiting k → ((s.workers i).queue.pc .worker).isWaiting = true →
      (s.workers i).queue.q.nodes = []) := by
  have h := inv_run hr
  refine ⟨fun i => ?_, fun k woken s' hc hs hc' => ?_, fun k i hc hw => ?_⟩
  · rw [← h.submitted i]
    exact (h.worker i).started_order.symm
  · have hall : ∀ i, (s'.workers i).finished = dealt i (submissions as) := by
      intro i
      rw [all_finished h hc hs hc' i, (inv_step h hs).submitted i, submissions_append]
      simp [submissions]
    refine ⟨hall, ?_⟩
    simp only [hall]
    exact dealt_perm (submissions as)
  · refine (h.worker i).idle_of_blocked ?_ hw
    rw [roleOf, hc]
    by_cases hik : i = k <;> simp [hik]

/-- two workers, two jobs: the client submits both, and waits while the workers run them -/
def twoWorkers : List (Act 2 ℕ) :=
  let client := List.replicate 5 (.client fun _ => true)
  let jobOf i := List.replicate 13 (.worker i fun _ => true)
  .submitJob 7 :: client ++ .submitJob 8 :: client ++ jobOf 1 ++ .waitAllFinish :: jobOf 0 ++
    List.replicate 4 (.client fun _ => true) ++ List.replicate 3 (.client fun _ => true)

theorem barrier_two_workers : ∃ s s' : Scheduler 2 ℕ, run step init twoWorkers = some s ∧ s.client = .waiting 1 ∧
    s.step (.client fun _ => true) = some s' ∧ s'.client = .idle ∧
    (s'.workers 0).finished = [7] ∧ (s'.workers 1).finished = [8] := by
  obtain ⟨s, hr, hc, s', hs, hc'⟩ : ∃ s : Scheduler 2 ℕ, run step init twoWorkers = some s ∧ s.client = .waiting 1 ∧
      ∃ s', s.step (.client fun _ => true) = some s' ∧ s'.client = .idle := ⟨_, rfl, rfl, _, rfl, rfl⟩
  have hall := ((barrier hr).2.1 1 _ s' hc hs hc').1
  exact ⟨s, s', hr, hc, hs, hc', hall 0, hall 1⟩

end Scheduler

end K23Search
