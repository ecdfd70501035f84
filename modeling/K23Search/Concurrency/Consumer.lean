/-
A `qs::concurrent_queue` (include/qs/queue.hpp) with one consumer in the loop of `worker::start`
(include/qs/scheduler.hpp) and any number of other threads that call `enqueue`, `wait_empty` and `close`.

Results:
- `consume_worker`: the consumer is the worker of `Worker.step`, without its records;
- `act_queue`: every step is one of `CQueue.act` or leaves the queue alone;
- `no_lost_wakeup`: the consumer is not left blocked on an open, non-empty queue in a run in which no `wait_empty`
  caller takes the signal that is meant for it;
- `signal_taken`: a run in which one takes it.
-/
import K23Search.Concurrency.Worker
import K23Search.Concurrency.Wakeups

namespace K23Search

open Lib
open CQueue (Pc Call Ret)

/-- the queue, and where the consumer is in its loop -/
structure Loop (Tid J : Type) where
  queue : CQueue Tid J
  pc : WorkerPc J

namespace Loop

variable {Tid J : Type}

inductive Act (Tid J : Type) where
  | consume (woken : Tid → Bool)
  | call (t : Tid) (k : Call J)
  | step (t : Tid) (woken : Tid → Bool)
  | ret (t : Tid)
  | spurious (t : Tid)

def init : Loop Tid J := ⟨CQueue.empty, .top⟩

section Model

variable [DecidableEq Tid] [Fintype Tid]

/-- a step of the consumer -/
def consume (me : Tid) (s : Loop Tid J) (woken : Tid → Bool) : Option (Loop Tid J) :=
  match s.pc with
  | .top => (s.queue.call me .peek).map fun queue => ⟨queue, .peeking⟩
  | .peeking =>
    match s.queue.take me with
    | some (.ptr p, queue) => some ⟨queue, .peeked p⟩
    | some _ => none
    | none => (s.queue.step me woken).map fun queue => { s with queue := queue }
  | .peeked p =>
    if s.queue.closed then some { s with pc := .stopped }
    else match p with
      | some p => some { s with pc := .ready p }
      | none => some { s with pc := .top }
  | .ready p => (s.queue.q.get p).map fun j => { s with pc := .running p j }
  | .running p _ => (s.queue.q.get p).map fun _ => { s with pc := .ran }
  | .ran => (s.queue.call me .dequeue).map fun queue => ⟨queue, .dequeuing⟩
  | .dequeuing =>
    match s.queue.take me with
    | some (_, queue) => some ⟨queue, .top⟩
    | none => (s.queue.step me woken).map fun queue => { s with queue := queue }
  | .stopped => none

/-- a step of any thread; only the consumer `me` reads -/
def act (me : Tid) (s : Loop Tid J) : Act Tid J → Option (Loop Tid J)
  | .consume woken => s.consume me woken
  | .call t k =>
    if t = me ∨ k.reads = true then none else (s.queue.call t k).map fun queue => { s with queue := queue }
  | .step t woken => if t = me then none else (s.queue.step t woken).map fun queue => { s with queue := queue }
  | .ret t => if t = me then none else (s.queue.take t).map fun x => { s with queue := x.2 }
  | .spurious t => (s.queue.spurious t).map fun queue => { s with queue := queue }

end Model

/-- the queue is open and not empty, the consumer and the `wait_empty` callers are blocked, and the other threads are
in no call -/
def Stuck (me : Tid) (s : Loop Tid J) : Prop :=
  s.queue.closed = false ∧ s.queue.q.isEmpty = false ∧ (s.queue.pc me).isWaiting = true ∧
    ∀ t, t ≠ me → s.queue.pc t = .idle ∨ s.queue.pc t = .waiting .waitEmpty

/-- the guard on a step: a signal sent while the consumer is blocked on an open, non-empty queue wakes the consumer, or
another signal is due -/
def Heeded (me : Tid) (s : Loop Tid J) : Act Tid J → Prop
  | .step t woken =>
    (s.queue.pc t).sends = true → (s.queue.pc me).isWaiting = true → s.queue.closed = false →
      s.queue.q.isEmpty = false → (∃ u, u ≠ t ∧ (s.queue.pc u).due false false = true) ∨ woken me = true
  | _ => True

/-- the worker, without its records -/
def ofWorker (w : Worker J) : Loop Party J := ⟨w.queue, w.pc⟩

theorem consume_worker (w : Worker J) (woken : Party → Bool) :
    (ofWorker w).consume .worker woken = (w.step woken).map ofWorker := by
  unfold consume Worker.step ofWorker
  cases w.pc with
  | peeking =>
    dsimp only
    cases w.queue.take .worker with
    | none => simp [Function.comp_def]
    | some x =>
      obtain ⟨r, queue⟩ := x
      cases r <;> rfl
  | peeked p =>
    dsimp only
    split
    · rfl
    · cases p <;> rfl
  | dequeuing =>
    dsimp only
    cases w.queue.take .worker with
    | none => simp [Function.comp_def]
    | some x => rfl
  | _ => simp [Function.comp_def]

/-! ## Only the consumer reads -/

/-- the call that the thread is in, in front of its critical section or blocked in it -/
def request : Pc J → Option (Call J)
  | .lock k | .locked k | .waiting k => some k
  | _ => none

/-- the consumer's calls read, and no others do -/
def Reads (me : Tid) (c : CQueue Tid J) : Prop := ∀ t k, request (c.pc t) = some k → (k.reads = true ↔ t = me)

theorem Reads.eq_of_reader {me : Tid} {c : CQueue Tid J} (h : Reads me c) {t : Tid} (ht : (c.pc t).reader = true) :
    t = me := by
  cases hpc : c.pc t with
  | waiting k => exact (h t k (by rw [hpc]; rfl)).1 (by rw [hpc] at ht; exact ht)
  | _ => simp [hpc, Pc.reader] at ht

theorem Reads.reader {me : Tid} {c : CQueue Tid J} (h : Reads me c) (hw : (c.pc me).isWaiting = true) :
    (c.pc me).reader = true := by
  cases hpc : c.pc me with
  | waiting k => exact (h me k (by rw [hpc]; rfl)).2 rfl
  | _ => simp [hpc, Pc.isWaiting] at hw

theorem request_wakeUp (woken : Tid → Bool) (pc : Tid → Pc J) (t : Tid) :
    request (CQueue.wakeUp woken pc t) = request (pc t) := by
  unfold CQueue.wakeUp
  split
  · next k hpc =>
    rw [hpc]
    split <;> rfl
  · rfl

section Steps

variable [DecidableEq Tid]

theorem request_body (c : CQueue Tid J) (t : Tid) (k : Call J) :
    request ((c.body t k).pc t) = none ∨ request ((c.body t k).pc t) = some k := by
  cases k <;> simp only [CQueue.body, CQueue.block] <;> (try split_ifs) <;> simp [request]

theorem request_goto {c : CQueue Tid J} {t u : Tid} {p : Pc J} {k : Call J}
    (h : request ((c.goto t p).pc u) = some k) : (u = t ∧ request p = some k) ∨ request (c.pc u) = some k := by
  by_cases hu : u = t
  · subst hu
    rw [CQueue.goto_pc] at h
    exact .inl ⟨rfl, h⟩
  · rw [CQueue.goto_pc_ne c hu] at h
    exact .inr h

variable [Fintype Tid]

/-- the call that a thread is in was made by `call` -/
theorem request_act {c c' : CQueue Tid J} {b : CQueue.Act Tid J} (hs : c.act b = some c') {u : Tid} {k : Call J}
    (h : request (c'.pc u) = some k) : request (c.pc u) = some k ∨ b = .call u k := by
  cases b with
  | call t k' =>
    obtain ⟨-, rfl⟩ := CQueue.call_some hs
    rcases request_goto h with ⟨rfl, hk⟩ | hold
    · cases hk
      exact .inr rfl
    · exact .inl hold
  | step t woken =>
    left
    rcases CQueue.step_cases hs with ⟨k', hpc, -, rfl⟩ | ⟨k', hpc, rfl⟩ | ⟨r, -, -, rfl⟩ | ⟨sig, r, -, rfl⟩ |
      ⟨r, -, -, rfl⟩
    · rcases request_goto h with ⟨rfl, hk⟩ | hold
      · rw [hpc]
        exact hk
      · exact hold
    · by_cases hu : u = t
      · subst hu
        rcases request_body c u k' with hn | hk
        · rw [hn] at h
          cases h
        · rw [hpc, ← h, hk]
          rfl
      · rwa [CQueue.body_pc_ne c hu] at h
    · rcases request_goto h with ⟨-, hk⟩ | hold
      · cases hk
      · rwa [← request_wakeUp woken]
    · rcases request_goto h with ⟨-, hk⟩ | hold
      · cases sig <;> cases hk
      · exact hold
    · rcases request_goto h with ⟨-, hk⟩ | hold
      · cases hk
      · rwa [← request_wakeUp woken]
  | ret t =>
    left
    obtain ⟨⟨r, d⟩, hd, rfl⟩ := Option.map_eq_some_iff.1 hs
    obtain ⟨-, rfl⟩ := CQueue.take_some hd
    rcases request_goto h with ⟨-, hk⟩ | hold
    · cases hk
    · exact hold
  | spurious t =>
    left
    obtain ⟨k', hpc, rfl⟩ := CQueue.spurious_some hs
    rcases request_goto h with ⟨rfl, hk⟩ | hold
    · rw [hpc]
      exact hk
    · exact hold

/-! ## The queue's part of a step -/

variable {me : Tid} {s s' : Loop Tid J} {a : Act Tid J}

/-- a step of the queue that the loop's step `a` may be -/
def Allowed (me : Tid) (a : Act Tid J) : CQueue.Act Tid J → Prop
  | .call t k => k.reads = true ↔ t = me
  | .step t woken => a = .step t woken ∨ t = me
  | _ => True

theorem consume_queue {woken : Tid → Bool} (hs : s.consume me woken = some s') :
    s'.queue = s.queue ∨ ∃ b, s.queue.act b = some s'.queue ∧ Allowed me a b := by
  have hstep : ∀ q, s.queue.step me woken = some q → ∃ b, s.queue.act b = some q ∧ Allowed me a b :=
    fun q hq => ⟨.step me woken, hq, .inr rfl⟩
  have hcall : ∀ k q, k.reads = true → s.queue.call me k = some q → ∃ b, s.queue.act b = some q ∧ Allowed me a b :=
    fun k q hk hq => ⟨.call me k, hq, by simp [Allowed, hk]⟩
  have hret : ∀ r q, s.queue.take me = some (r, q) → ∃ b, s.queue.act b = some q ∧ Allowed me a b :=
    fun r q hq => ⟨.ret me, by simp [CQueue.act, hq], trivial⟩
  unfold consume at hs
  split at hs
  · obtain ⟨q, hq, rfl⟩ := Option.map_eq_some_iff.1 hs
    exact .inr (hcall .peek q rfl hq)
  · split at hs
    · next hq =>
      cases hs
      exact .inr (hret _ _ hq)
    · cases hs
    · obtain ⟨q, hq, rfl⟩ := Option.map_eq_some_iff.1 hs
      exact .inr (hstep q hq)
  · split_ifs at hs
    · cases hs
      exact .inl rfl
    · split at hs <;> cases hs <;> exact .inl rfl
  · obtain ⟨j, -, rfl⟩ := Option.map_eq_some_iff.1 hs
    exact .inl rfl
  · obtain ⟨j, -, rfl⟩ := Option.map_eq_some_iff.1 hs
    exact .inl rfl
  · obtain ⟨q, hq, rfl⟩ := Option.map_eq_some_iff.1 hs
    exact .inr (hcall .dequeue q rfl hq)
  · split at hs
    · next hq =>
      cases hs
      exact .inr (hret _ _ hq)
    · obtain ⟨q, hq, rfl⟩ := Option.map_eq_some_iff.1 hs
      exact .inr (hstep q hq)
  · cases hs

theorem act_queue (hs : s.act me a = some s') :
    s'.queue = s.queue ∨ ∃ b, s.queue.act b = some s'.queue ∧ Allowed me a b := by
  cases a with
  | consume woken => exact consume_queue hs
  | call t k =>
    simp only [act] at hs
    split_ifs at hs with hcond
    obtain ⟨q, hq, rfl⟩ := Option.map_eq_some_iff.1 hs
    rw [not_or] at hcond
    exact .inr ⟨.call t k, hq, ⟨fun hk => absurd hk hcond.2, fun ht => absurd ht hcond.1⟩⟩
  | step t woken =>
    simp only [act] at hs
    split_ifs at hs
    obtain ⟨q, hq, rfl⟩ := Option.map_eq_some_iff.1 hs
    exact .inr ⟨.step t woken, hq, .inl rfl⟩
  | ret t =>
    simp only [act] at hs
    split_ifs at hs
    obtain ⟨⟨r, q⟩, hq, rfl⟩ := Option.map_eq_some_iff.1 hs
    exact .inr ⟨.ret t, by simp [CQueue.act, hq], trivial⟩
  | spurious t =>
    obtain ⟨q, hq, rfl⟩ := Option.map_eq_some_iff.1 hs
    exact .inr ⟨.spurious t, hq, trivial⟩

theorem reads_act (h : Reads me s.queue) (hs : s.act me a = some s') : Reads me s'.queue := by
  rcases act_queue hs with hq | ⟨b, hb, hallowed⟩
  · rwa [hq]
  · intro t k hk
    rcases request_act hb hk with hold | rfl
    · exact h t k hold
    · exact hallowed

/-! ## No lost wake-up -/

/-- the consumer need not be blocked on an open queue with a job -/
def HasJob (closed empty : Bool) : Prop := closed = false ∧ empty = false

omit [DecidableEq Tid] [Fintype Tid] in
theorem Heeded.queue (hreads : Reads me s.queue) (hg : s.Heeded me a) {b : CQueue.Act Tid J}
    (hb : Allowed me a b) : s.queue.Heeded HasJob b := by
  cases b with
  | step t woken =>
    rintro hsend ⟨⟨r, hr⟩, hopen, hjob⟩
    have hrme := hreads.eq_of_reader hr
    subst hrme
    have hwait := Pc.waiting_of_reader hr
    rcases hb with rfl | rfl
    · rcases hg hsend hwait hopen hjob with ⟨u, hut, hdue⟩ | hwoken
      · exact .inl ⟨u, hut, by rwa [hopen, hjob]⟩
      · refine .inr (.inr fun u hu => ?_)
        rwa [hreads.eq_of_reader hu]
    · cases hpc : s.queue.pc t <;> simp_all [Pc.sends, Pc.isWaiting]
  | _ => trivial

theorem heard_act (hreads : Reads me s.queue) (h : s.queue.Heard HasJob) (hg : s.Heeded me a)
    (hs : s.act me a = some s') : s'.queue.Heard HasJob := by
  rcases act_queue hs with hq | ⟨b, hb, hallowed⟩
  · rwa [hq]
  · exact CQueue.heard_act (by simp [HasJob]) h (hg.queue hreads hallowed) hb

theorem heard_run {as : List (Act Tid J)} (hr : run (act me) init as = some s)
    (hg : Meets (act me) init (fun _ => Heeded me) as) : Reads me s.queue ∧ s.queue.Heard HasJob := by
  have hinit : Reads me (init : Loop Tid J).queue := by
    intro t k hk
    cases hk
  exact run_induction (G := fun _ => Heeded me)
    (I := fun _ (u : Loop Tid J) => Reads me u.queue ∧ u.queue.Heard HasJob) ⟨hinit, CQueue.heard_empty _⟩
    (fun _ _ _ _ _ hg h hs => ⟨reads_act h.1 hs, heard_act h.1 h.2 hg hs⟩) hg hr

/-- **No lost wake-up**, in every run in which the last signal sent while the consumer is blocked on a job wakes the
consumer. -/
theorem no_lost_wakeup {as : List (Act Tid J)} (hr : run (act me) init as = some s)
    (hg : Meets (act me) init (fun _ => Heeded me) as) : ¬ s.Stuck me := by
  rintro ⟨hopen, hjob, hwait, hothers⟩
  obtain ⟨hreads, hheard⟩ := heard_run hr hg
  obtain ⟨u, hu⟩ := hheard ⟨⟨me, hreads.reader hwait⟩, hopen, hjob⟩
  by_cases hume : u = me
  · subst hume
    cases hpc : s.queue.pc u <;> simp_all [Pc.due, Pc.signals, Pc.isWaiting]
  · rcases hothers u hume with hpc | hpc
    · rw [hpc] at hu
      cases hu
    · rw [hpc] at hu
      cases hu

instance (a : Act Tid J) : Decidable (s.Heeded me a) :=
  match a with
  | .step _ _ => inferInstanceAs (Decidable (_ → _ → _ → _ → _ ∨ _))
  | .consume _ | .call _ _ | .ret _ | .spurious _ => inferInstanceAs (Decidable True)

end Steps

/-- thread `some false` calls `enqueue` while the consumer (`none`) is blocked, and nobody waits for the queue to get
empty -/
theorem no_lost_wakeup_one : ∃ s : Loop (Option Bool) ℕ,
    run (act none) init (List.replicate 3 (.consume fun _ => true) ++ .call (some false) (.enqueue 7) ::
      List.replicate 4 (.step (some false) fun _ => true)) = some s ∧
      s.queue.q.isEmpty = false ∧ ¬ s.Stuck none := by
  obtain ⟨s, hr, hjob⟩ : ∃ s : Loop (Option Bool) ℕ,
      run (act none) init (List.replicate 3 (.consume fun _ => true) ++ .call (some false) (.enqueue 7) ::
        List.replicate 4 (.step (some false) fun _ => true)) = some s ∧ s.queue.q.isEmpty = false := ⟨_, rfl, rfl⟩
  exact ⟨s, hr, hjob, no_lost_wakeup hr (meets_of_check (by decide))⟩

/-- **The wrong thread is woken.** The consumer blocks on the empty queue. Thread `some false` appends a job and
releases the mutex; `some true` calls `wait_empty` and blocks, too; the signal of the `enqueue` wakes `some true` only,
which blocks again. -/
theorem signal_taken : ∃ s : Loop (Option Bool) ℕ,
    run (act none) init (List.replicate 3 (.consume fun _ => true) ++ .call (some false) (.enqueue 7) ::
      List.replicate 3 (.step (some false) fun _ => true) ++ .call (some true) .waitEmpty ::
      List.replicate 2 (.step (some true) fun _ => true) ++
      [.step (some false) fun t => t = some true, .ret (some false)] ++
      List.replicate 2 (.step (some true) fun _ => true)) = some s ∧ s.Stuck none := by
  refine ⟨_, rfl, rfl, rfl, rfl, fun t ht => ?_⟩
  rcases t with _ | _ | _
  · exact absurd rfl ht
  · exact .inl rfl
  · exact .inr rfl

end Loop

end K23Search
