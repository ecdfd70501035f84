/-
Liveness of `qs::scheduler` (include/qs/scheduler.hpp, src/lib/scheduler.cpp): the calls of its client return, for
every order of the steps of the threads. A job is a call that returns.

The potential of a worker counts the steps left to its two parties: 17 for each job in the queue, the way of the
thread to its next blocking point (`rank`) and that of the client to the end of its call (`clientRank`). A signal
pays for the party it wakes; only a spurious wake-up raises the potential, by the three steps back to the wait.

Results:
- `Worker.step_potential`, `Worker.clientStep_potential`: every step of a party lowers it;
- `Worker.Inv.unstuck`: unless the client is out, the client or the worker's thread can take a step;
- `Scheduler.call_returns`: `submit_job` and `wait_all_finish` return under every schedule.

Witness: `call_returns_two_workers`.
-/
import K23Search.Concurrency.Scheduler
import K23Search.Concurrency.WorkerLoop
import K23Search.Lib.Progress
import Mathlib.Algebra.BigOperators.Fin
import Mathlib.Algebra.Order.BigOperators.Group.Finset

namespace K23Search

open K23Search.Lib
open CQueue (Pc Call Ret wakeUp)

namespace Worker

variable {J : Type}

/-! ## The potential of a worker -/

/-- the steps of the thread to its next blocking point, less what the job at the head of the queue pays for -/
def rank : WorkerPc J → Pc J → ℕ
  | .top, _ => 10
  | .peeking, .lock _ => 9
  | .peeking, .locked _ => 8
  | .peeking, .unlock _ _ => 7
  | .peeking, _ => 6
  | .peeked _, _ => 5
  | .ready _, _ => 4
  | .running _ _, _ => 3
  | .ran, _ => 2
  | .dequeuing, .lock _ => 1
  | .dequeuing, .locked _ => 0
  | .dequeuing, .signalLocked _ => 16
  | .dequeuing, .unlock _ _ => 12
  | .dequeuing, _ => 11
  | .stopped, _ => 0

/-- the steps of the client to the end of its call; an `enqueue` pays for the job that it adds -/
def clientRank : Pc J → ℕ
  | .lock (.enqueue _) => 24
  | .locked (.enqueue _) => 23
  | .lock .close => 7
  | .locked .close => 6
  | .lock _ => 3
  | .locked _ => 2
  | .signalLocked _ => 5
  | .unlock _ .void => 1
  | .unlock _ _ => 5
  | .signal _ => 4
  | _ => 0

def potential (w : Worker J) : ℕ :=
  17 * w.queue.q.nodes.length + rank w.pc (w.queue.pc .worker) + clientRank (w.queue.pc .client)

theorem rank_le (pc : WorkerPc J) (p : Pc J) : rank pc p ≤ 16 := by
  unfold rank
  split <;> decide

theorem clientRank_le (p : Pc J) : clientRank p ≤ 24 := by
  unfold clientRank
  split <;> decide

variable {role : Role} {w w' : Worker J} {woken : Party → Bool}

/-- waking a party costs three steps -/
theorem Sound.rank_wakeUp (h : Sound w) (woken : Party → Bool) :
    rank w.pc (wakeUp woken w.queue.pc .worker) ≤ rank w.pc (w.queue.pc .worker) + 3 := by
  rw [wakeUp_eq]
  split
  · cases hp : w.queue.pc .worker with
    | waiting k =>
      obtain ⟨hpc, rfl⟩ := h.at_waiting hp
      rw [hpc]
      simp [relock, rank]
    | _ => exact Nat.le_add_right _ 3
  · exact Nat.le_add_right _ 3

theorem clientRank_wakeUp {q : CQueue Party J} (h : clientOk role q.q.nodes (q.pc .client)) (woken : Party → Bool) :
    clientRank (wakeUp woken q.pc .client) ≤ clientRank (q.pc .client) + 3 := by
  rw [wakeUp_eq]
  split
  · cases hp : q.pc .client with
    | waiting k =>
      rw [hp] at h
      obtain ⟨rfl, rfl⟩ := clientOk_waiting h
      simp [relock, clientRank]
    | _ => exact Nat.le_add_right _ 3
  · exact Nat.le_add_right _ 3

/-! ## The steps lower the potential -/

/-- **Potential of the worker.** Every step of the worker's thread lowers the potential, if a signal costs the client
three steps at most. -/
theorem step_potential (h : Sound w)
    (hclient : clientRank (wakeUp woken w.queue.pc .client) ≤ clientRank (w.queue.pc .client) + 3)
    (hs : w.step woken = some w') : w'.potential < w.potential := by
  unfold potential
  cases step_move h hs with
  | callPeek hpc hq => simp [hpc, hq, rank]
  | callDequeue hpc hq => simp [hpc, hq, rank]
  | acquire k hq hfree =>
    simp only [goto_worker, CQueue.goto_pc, CQueue.goto_q, hq]
    obtain ⟨ph, -, hph, -⟩ := h.work
    rw [hq] at hph
    have hstay := phase_of_stays (by cases w.pc <;> simp [leaves]) hph
    rcases phase_locked (phase_lock hstay) with ⟨hpc, -⟩ | ⟨hpc, -⟩ <;> simp [hpc, rank]
  | block hpc hq hnodes hopen => simp [CQueue.block, hpc, hq, rank]
  | look hpc hq hgo => simp [hpc, hq, rank]
  | remove x rest d e hpc hq hnodes hd =>
    simp only [goto_worker, CQueue.goto_pc, CQueue.goto_q, hpc, hq, hnodes, hd, rank, List.length_cons]
    omega
  | signal r hpc hq hok =>
    simp only [goto_worker, CQueue.goto_pc, CQueue.goto_q, hpc, hq, rank]
    omega
  | release r hq =>
    simp only [goto_worker, CQueue.goto_pc, CQueue.goto_q, hq]
    have hcall : w.pc.inCall = true := by
      cases hcall : w.pc.inCall with
      | true => rfl
      | false =>
        rw [h.idle hcall] at hq
        cases hq
    have hlt : rank w.pc (.done r) < rank w.pc (.unlock false r) := by
      cases hpc : w.pc with
      | peeking => simp [rank]
      | dequeuing => simp [rank]
      | _ =>
        rw [hpc] at hcall
        cases hcall
    omega
  | peeked p hpc hq => simp [hpc, hq, rank]
  | leave p hpc hclosed => simp [hpc, rank]
  | pass p hpc hopen => simp [hpc, rank]
  | start p j hpc hj => simp [hpc, rank]
  | finish p j hpc => simp [hpc, rank]
  | dequeued r hpc hq => simp [hpc, hq, rank]

/-- **Potential of the client.** Every step of the client in its call lowers the potential. -/
theorem clientStep_potential (h : Inv role w) (hs : w.clientStep woken = some w') : w'.potential < w.potential := by
  have hok := h.inv_at.client_ok
  obtain ⟨q, hq, rfl⟩ := Option.map_eq_some_iff.1 hs
  unfold potential
  rcases CQueue.step_cases hq with ⟨k, hpc, -, rfl⟩ | ⟨k, hpc, rfl⟩ | ⟨r, hpc, -, rfl⟩ | ⟨sig, r, hpc, rfl⟩ |
    ⟨r, hpc, -, rfl⟩
  · rw [hpc] at hok
    simp only [goto_client, CQueue.goto_pc, CQueue.goto_q, hpc]
    rcases clientOk_locked (clientOk_lock hok) with ⟨rfl, j, rfl⟩ | ⟨rfl, rfl⟩ <;> simp [clientRank]
  · rw [hpc] at hok
    rcases clientOk_locked hok with ⟨rfl, j, rfl⟩ | ⟨rfl, rfl⟩
    · simp only [CQueue.body, goto_client, CQueue.goto_pc, CQueue.goto_q, hpc, clientRank, DList.nodes_append,
        List.length_append, List.length_singleton]
      omega
    · simp only [CQueue.body]
      split
      · simp [CQueue.block, hpc, clientRank]
      · simp [hpc, clientRank]
  · rw [hpc] at hok
    exact absurd hok clientOk_signalLocked
  · rw [hpc] at hok
    simp only [goto_client, CQueue.goto_pc, CQueue.goto_q, hpc]
    have hlt : clientRank (if sig then .signal r else .done r) < clientRank (.unlock sig r) := by
      cases role <;> cases sig <;> cases r <;> simp_all [clientOk, clientRank]
    omega
  · -- the signal may wake the worker
    have hwake := h.sound.rank_wakeUp woken
    simp only [goto_client, CQueue.goto_pc, CQueue.goto_q, hpc, clientRank]
    omega

theorem clientReturn_potential (hs : w.clientReturn = some w') : w'.potential = w.potential := by
  obtain ⟨⟨r, q⟩, hq, rfl⟩ := Option.map_eq_some_iff.1 hs
  obtain ⟨hpc, rfl⟩ := CQueue.take_some hq
  simp only [potential, goto_client, CQueue.goto_pc, CQueue.goto_q, hpc, clientRank]

theorem waitDone_potential (hs : w.waitDone = some w') : w'.potential = w.potential + 3 := by
  obtain ⟨q, hq, rfl⟩ := Option.map_eq_some_iff.1 hs
  obtain ⟨hpc, rfl⟩ := CQueue.call_some hq
  simp only [potential, goto_client, CQueue.goto_pc, CQueue.goto_q, hpc, clientRank]

/-- a spurious wake-up raises the potential by the way back to the wait -/
theorem spurious_potential (h : Inv role w) {t : Party} (hs : w.spurious t = some w') :
    w'.potential ≤ w.potential + 3 := by
  obtain ⟨ph, -, hph, -⟩ := h.inv_at.work
  have hok := h.inv_at.client_ok
  obtain ⟨q, hq, rfl⟩ := Option.map_eq_some_iff.1 hs
  obtain ⟨k, hpc, rfl⟩ := CQueue.spurious_some hq
  cases t with
  | client =>
    rw [hpc] at hok
    obtain ⟨rfl, rfl⟩ := clientOk_waiting hok
    simp only [potential, goto_client, CQueue.goto_pc, CQueue.goto_q, hpc, clientRank]
    omega
  | worker =>
    rw [hpc] at hph
    obtain ⟨hpeek, rfl, rfl⟩ := phase_waiting hph
    simp only [potential, goto_worker, CQueue.goto_pc, CQueue.goto_q, hpc, hpeek, rank]
    omega

/-- at most one job in the queue has finished -/
theorem Sound.nodes_le (h : Sound w) : w.queue.q.nodes.length ≤ w.submitted.length + 1 := by
  obtain ⟨ph, todo, -, hok, hsub⟩ := h.work
  have hle : todo.length ≤ w.submitted.length := by
    rw [hsub, List.append_assoc, List.length_append, List.length_append]
    omega
  have hnodes : w.queue.q.nodes.length ≤ todo.length + 1 := by
    cases ph with
    | unseen => simp [hok.2]
    | seen p => simp [hok.2.1]
    | running p j => simp [hok.2.1]
    | ran =>
      obtain ⟨-, node, rest, hcons, htodo⟩ := hok
      simp [hcons, htodo]
  exact hnodes.trans (Nat.succ_le_succ hle)

theorem potential_le (h : Sound w) : w.potential ≤ 17 * w.submitted.length + 57 := by
  have hnodes := h.nodes_le
  have hrank := rank_le w.pc (w.queue.pc .worker)
  have hclient := clientRank_le (w.queue.pc .client)
  unfold potential
  omega

/-! ## Some thread can take a step -/

/-- with an open queue the thread stays in its loop -/
theorem Inv.running (h : Inv role w) : w.pc ≠ .stopped := by
  intro hpc
  have hleft := h.sound.leaving (by rw [hpc, h.sound.idle (by rw [hpc]; rfl)]; rfl)
  rw [h.opened] at hleft
  cases hleft

/-- **No deadlock.** While the client is in a call on this worker, the client or the worker's thread can take a
step. -/
theorem Inv.unstuck (h : Inv role w) (hrole : role ≠ .out) : (∃ w', w.clientReturn = some w') ∨
    (w.clientReturn = none ∧ ∃ w', w.clientStep (fun _ => true) = some w') ∨
    ∃ w', w.step (fun _ => true) = some w' := by
  have hne : w.queue.pc .client ≠ .idle := by
    intro hidle
    have hok := h.inv_at.client_ok
    rw [hidle] at hok
    cases role <;> first | exact hrole rfl | cases hok
  cases hw : (w.queue.pc .client).isWaiting with
  | false => exact h.sound.client_moves hne hw
  | true =>
    -- the client waits for a job that the worker has, or is about to be woken by the worker
    have hawake : (w.queue.pc .worker).isWaiting = false := by
      cases hww : (w.queue.pc .worker).isWaiting with
      | false => rfl
      | true =>
        rcases h.inv_at.worker_waits hww with hn | hs
        · rcases h.inv_at.client_waits hw with hn' | hs'
          · exact absurd hn hn'
          · rw [CQueue.signals_of_waiting hww] at hs'
            cases hs'
        · rw [CQueue.signals_of_waiting hw] at hs
          cases hs
    refine .inr (.inr (h.sound.enabled h.running hawake fun hm => ?_))
    have hholds := (h.mutex .client).1 hm
    rw [CQueue.holds_of_waiting hw] at hholds
    cases hholds

end Worker

namespace Scheduler

variable {n : ℕ} {J : Type}

/-! ## The potential of the scheduler -/

/-- an action of a thread of the program, not of its environment -/
def Act.isThread : Act n J → Bool
  | .client _ => true
  | .worker _ _ => true
  | _ => false

/-- the calls of `wait_done` that the client has still to make, and its way out of the call -/
def callRank : ClientPc n → ℕ
  | .idle => 0
  | .submitting => 1
  | .waiting i => 4 * (n - i.val)

def work (s : Scheduler n J) : ℕ := ∑ i, (s.workers i).potential

def potential (s : Scheduler n J) : ℕ := s.work + callRank s.client

theorem work_put (s : Scheduler n J) (i : Fin n) (w : Worker J) :
    (s.put i w).work + (s.workers i).potential = s.work + w.potential := by
  have hsum := Finset.add_sum_erase Finset.univ (fun k => ((s.put i w).workers k).potential) (Finset.mem_univ i)
  have hold := Finset.add_sum_erase Finset.univ (fun k => (s.workers k).potential) (Finset.mem_univ i)
  have hrest : ∑ k ∈ Finset.univ.erase i, ((s.put i w).workers k).potential =
      ∑ k ∈ Finset.univ.erase i, (s.workers k).potential := by
    refine Finset.sum_congr rfl fun k hk => ?_
    rw [put_ne s (Finset.ne_of_mem_erase hk)]
  rw [put_self] at hsum
  unfold work
  omega

@[simp] theorem work_goto (s : Scheduler n J) (c : ClientPc n) : (s.goto c).work = s.work := rfl

/-- a worker's step, or one of the client at a worker, lowers the potential by as much as it lowers the worker's -/
theorem potential_put_lt {s : Scheduler n J} {i : Fin n} {w : Worker J}
    (h : w.potential < (s.workers i).potential) : (s.put i w).potential < s.potential := by
  have hwork := s.work_put i w
  change (s.put i w).work + callRank s.client < s.work + callRank s.client
  omega

theorem waitOn_work {s s' : Scheduler n J} {i : Fin n} (hs : s.waitOn i = some s') :
    s'.work = s.work + 3 ∧ s'.client = .waiting i := by
  obtain ⟨w, hw, rfl⟩ := Option.map_eq_some_iff.1 hs
  have hwork := s.work_put i w
  have hpot := Worker.waitDone_potential hw
  refine ⟨?_, rfl⟩
  rw [work_goto]
  omega

variable [NeZero n] {as : List (Act n J)} {s s' : Scheduler n J}

/-- every step of a thread lowers the potential -/
theorem step_potential (h : Inv as s) {a : Act n J} (ha : a.isThread = true) (hs : s.step a = some s') :
    s'.potential < s.potential := by
  cases a with
  | client woken =>
    simp only [step] at hs
    split at hs
    · cases hs
    · next hpc =>
      split at hs
      · next w hw =>
        cases hs
        have hwork := s.advance.work_put s.currentWorker w
        rw [show s.advance.workers s.currentWorker = s.workers s.currentWorker from rfl, show s.advance.work = s.work
          from rfl, Worker.clientReturn_potential hw] at hwork
        simp only [potential, work_goto, hpc, callRank]
        change (s.advance.put s.currentWorker w).work + 0 < _
        omega
      · obtain ⟨w, hw, rfl⟩ := Option.map_eq_some_iff.1 hs
        exact potential_put_lt (Worker.clientStep_potential (h.worker _) hw)
    · next i hpc =>
      split at hs
      · next w hw =>
        have hwork := s.work_put i w
        rw [Worker.clientReturn_potential hw] at hwork
        have hi := i.isLt
        unfold waited at hs
        split at hs
        · -- on to the next worker
          obtain ⟨hnext, hclient⟩ := waitOn_work hs
          simp only [potential, hclient, hpc, callRank]
          omega
        · cases hs
          simp only [potential, work_goto, hpc]
          change (s.put i w).work + 0 < s.work + 4 * (n - i.val)
          omega
      · obtain ⟨w, hw, rfl⟩ := Option.map_eq_some_iff.1 hs
        exact potential_put_lt (Worker.clientStep_potential (h.worker _) hw)
  | worker i woken =>
    obtain ⟨w, hw, rfl⟩ := Option.map_eq_some_iff.1 hs
    exact potential_put_lt (Worker.step_potential (h.worker i).sound (Worker.clientRank_wakeUp (h.worker i).inv_at.client_ok woken) hw)
  | _ => cases ha

/-- while the client is in a call, only a spurious wake-up raises the potential, by 3 -/
theorem spurious_potential (h : Inv as s) (hc : s.client ≠ .idle) {a : Act n J} (ha : a.isThread = false)
    (hs : s.step a = some s') : s'.potential ≤ s.potential + 3 := by
  cases a with
  | submitJob j =>
    -- the client is in a call already
    simp only [step] at hs
    cases hs
  | waitAllFinish =>
    simp only [step] at hs
    cases hs
  | spurious i t =>
    obtain ⟨w, hw, rfl⟩ := Option.map_eq_some_iff.1 hs
    have hpot := Worker.spurious_potential (h.worker i) hw
    have hwork := s.work_put i w
    change (s.put i w).work + callRank s.client ≤ s.work + callRank s.client + 3
    omega
  | _ => cases ha

/-- while the client is in a call, some thread can take a step -/
theorem unstuck (h : Inv as s) (hc : s.client ≠ .idle) :
    ∃ (a : Act n J) (t : Scheduler n J), a.isThread = true ∧ s.step a = some t := by
  -- the worker that the client is at
  obtain ⟨i, hrole, hat⟩ : ∃ i, s.roleOf i ≠ .out ∧
      (s.client = .submitting ∧ s.currentWorker = i ∨ s.client = .waiting i) := by
    cases hpc : s.client with
    | idle => exact absurd hpc hc
    | submitting => exact ⟨s.currentWorker, by simp [roleOf, hpc], .inl ⟨rfl, rfl⟩⟩
    | waiting i => exact ⟨i, by simp [roleOf, hpc], .inr rfl⟩
  rcases (h.worker i).unstuck hrole with ⟨w, hw⟩ | ⟨hnone, w, hw⟩ | ⟨w, hw⟩
  · rcases hat with ⟨hpc, rfl⟩ | hpc
    · exact ⟨.client fun _ => true, _, rfl, by simp only [step, hpc, hw]; rfl⟩
    · -- `wait_done` returns; the next one can be called
      obtain ⟨hfree, -⟩ := h.wait_return hpc hw
      have hcall : ∀ k, ∃ t, (s.put i w).waitOn k = some t := by
        intro k
        have hidle := Worker.clientOk_out (hfree.worker k).inv_at.client_ok
        exact ⟨_, by simp only [waitOn, Worker.waitDone, CQueue.call, hidle]; rfl⟩
      obtain ⟨t, ht⟩ : ∃ t, (s.put i w).waited i = some t := by
        unfold waited
        split
        · exact hcall _
        · exact ⟨_, rfl⟩
      exact ⟨.client fun _ => true, t, rfl, by simp only [step, hpc, hw]; exact ht⟩
  · rcases hat with ⟨hpc, rfl⟩ | hpc
    · exact ⟨.client fun _ => true, _, rfl, by simp only [step, hpc, hnone, hw]; rfl⟩
    · exact ⟨.client fun _ => true, _, rfl, by simp only [step, hpc, hnone, hw]; rfl⟩
  · exact ⟨.worker i fun _ => true, _, rfl, by simp only [step, hw]; rfl⟩

/-- the work in terms of the jobs submitted -/
theorem work_le {js : List J} (hsound : ∀ i, (s.workers i).Sound) (hsub : ∀ i, (s.workers i).submitted = dealt i js) :
    s.work ≤ 17 * js.length + 57 * n := by
  have hjobs : ∑ i : Fin n, (s.workers i).submitted.length = js.length := by
    have hperm := (dealt_perm (n := n) js).length_eq
    rw [List.length_flatMap] at hperm
    rw [← hperm, ← List.sum_ofFn, List.ofFn_eq_map]
    simp only [hsub]
  have hwork : s.work ≤ ∑ i : Fin n, (17 * (s.workers i).submitted.length + 57) :=
    Finset.sum_le_sum fun i _ => Worker.potential_le (hsound i)
  rw [Finset.sum_add_distrib, ← Finset.mul_sum, hjobs, Finset.sum_const, Finset.card_univ, Fintype.card_fin,
    smul_eq_mul] at hwork
  omega

theorem potential_le (h : Inv as s) : s.potential ≤ 17 * (submissions as).length + 61 * n := by
  have hwork := work_le (fun i => (h.worker i).sound) h.submitted
  have hcall : callRank s.client ≤ 4 * n := by
    have hpos := Nat.pos_of_ne_zero (NeZero.ne n)
    cases s.client with
    | idle => exact Nat.zero_le _
    | submitting => simp only [callRank]; omega
    | waiting i => exact Nat.mul_le_mul_left 4 (Nat.sub_le n i.val)
  unfold potential
  omega

/-- **The calls of the client return.** In every reachable state in which the client is in `submit_job` or in
`wait_all_finish`: until the call returns, some thread can always take a step, and under every schedule the threads
take at most `17 * jobs + 61 * n` steps, and 3 more for every spurious wake-up. So no execution without end, with
finitely many spurious wake-ups, keeps the client in the call. -/
theorem call_returns (hr : run step (init : Scheduler n J) as = some s) :
    Waits step Act.isThread (fun t => t.client = .idle) (17 * (submissions as).length + 61 * n) 3 s ∧
    ∀ (σ : ℕ → Scheduler n J) (α : ℕ → Act n J) (N : ℕ), σ 0 = s → (∀ i, step (σ i) (α i) = some (σ (i + 1))) →
      (∀ i, N ≤ i → (α i).isThread = true) → ∃ i, (σ i).client = .idle := by
  have hinv := inv_run hr
  have hwaits : Waits step Act.isThread (fun t => t.client = .idle) (17 * (submissions as).length + 61 * n) 3 s := by
    refine waits_of_potential (I := fun t => ∃ bs, Inv bs t) (μ := potential) ?_ ?_ ?_ ?_ ⟨as, hinv⟩ (potential_le hinv)
    · rintro t a u ⟨bs, h⟩ hs
      exact ⟨bs ++ [a], inv_step h hs⟩
    · rintro t a u ⟨bs, h⟩ - hs ha
      exact step_potential h ha hs
    · rintro t a u ⟨bs, h⟩ hopen hs ha
      exact spurious_potential h hopen ha hs
    · rintro t ⟨bs, h⟩ hopen
      exact unstuck h hopen
  refine ⟨hwaits, fun σ α N h0 hσ hN => ?_⟩
  subst h0
  exact hwaits.reaches hσ hN

/-- two workers with a job each, and the client about to wait for them -/
def twoJobs : List (Act 2 ℕ) :=
  let client := List.replicate 5 (.client fun _ => true)
  .submitJob 7 :: client ++ .submitJob 8 :: client ++ [.waitAllFinish]

theorem call_returns_two_workers : ∃ s : Scheduler 2 ℕ, run step init twoJobs = some s ∧ s.client = .waiting 0 ∧
    Waits step Act.isThread (fun t => t.client = .idle) 156 3 s := by
  obtain ⟨s, hr, hc⟩ : ∃ s : Scheduler 2 ℕ, run step init twoJobs = some s ∧ s.client = .waiting 0 := ⟨_, rfl, rfl⟩
  exact ⟨s, hr, hc, (call_returns hr).1⟩

end Scheduler

end K23Search
