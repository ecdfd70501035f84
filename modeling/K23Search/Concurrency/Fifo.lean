/-
`qs::concurrent_queue` (include/qs/queue.hpp) as a linearizable FIFO queue, for any number of threads in any calls.

- `Fifo`: the queue for one thread, a relation on its content: the nodes with their items, and whether it is closed.
- `Recorded`, `act`: the concurrent queue with a log of its calls, critical sections and returns.

Results:
- `point_body`, `fifo_body`: a critical section that does not block leaves its thread with the result of `critical`, and
  is a step of `Fifo`;
- `inv_act`, `inv_run`: the log is linearized by `Fifo`, at the critical sections;
- `enqueued_eq`: in a run of `Fifo` the items enqueued are those dequeued, followed by the content;
- `fifo`: the two together.
-/
import K23Search.Concurrency.Wakeups
import K23Search.Containers.Optional
import K23Search.Lib.Linearizable

namespace K23Search

open Lib
open CQueue (Pc Call Ret)

variable {Tid T : Type}

/-! ## The queue for one thread -/

structure Content (T : Type) where
  nodes : List (ℕ × T)
  closed : Bool

def Content.items (a : Content T) : List T := a.nodes.map Prod.snd

inductive Fifo : Content T → Call T → Ret T → Content T → Prop
  | enqueue (nodes closed p data) :
    Fifo ⟨nodes, closed⟩ (.enqueue data) (.flag nodes.isEmpty) ⟨nodes ++ [(p, data)], closed⟩
  | peek (nodes closed) : nodes ≠ [] ∨ closed = true →
    Fifo ⟨nodes, closed⟩ .peek (.ptr (nodes.map Prod.fst).head?) ⟨nodes, closed⟩
  | dequeue (p data rest closed) :
    Fifo ⟨(p, data) :: rest, closed⟩ .dequeue (.item (some data) rest.isEmpty) ⟨rest, closed⟩
  | dequeueClosed : Fifo ⟨[], true⟩ .dequeue (.item none true) ⟨[], true⟩
  | waitEmpty (closed) : Fifo ⟨[], closed⟩ .waitEmpty .void ⟨[], closed⟩
  | close (nodes closed) : Fifo ⟨nodes, closed⟩ .close .void ⟨nodes, true⟩

abbrev Log (Tid T : Type) := List (Event Tid (Call T) (Ret T) (Content T))

def enqueuedBy : Event Tid (Call T) (Ret T) (Content T) → Option T
  | .effect _ (.enqueue data) _ _ => some data
  | _ => none

def dequeuedBy : Event Tid (Call T) (Ret T) (Content T) → Option T
  | .effect _ .dequeue (.item x _) _ => x
  | _ => none

/-- the items enqueued, in the order of the critical sections -/
def enqueued (log : Log Tid T) : List T := log.filterMap enqueuedBy

/-- the items that `dequeue` took out, in the order of the critical sections -/
def dequeued (log : Log Tid T) : List T := log.filterMap dequeuedBy

theorem enqueued_snoc (log : Log Tid T) (e) : enqueued (log ++ [e]) = enqueued log ++ (enqueuedBy e).toList := by
  cases h : enqueuedBy e <;> simp [enqueued, h]

theorem dequeued_snoc (log : Log Tid T) (e) : dequeued (log ++ [e]) = dequeued log ++ (dequeuedBy e).toList := by
  cases h : dequeuedBy e <;> simp [dequeued, h]

/-- **FIFO.** Nothing is lost, duplicated or reordered. -/
theorem enqueued_eq {log : Log Tid T} {a : Content T} (h : Effects Fifo ⟨[], false⟩ log a) :
    enqueued log = dequeued log ++ a.items := by
  induction h with
  | start => rfl
  | effect _ hspec ih =>
    rw [enqueued_snoc, dequeued_snoc, ih]
    cases hspec <;> simp [enqueuedBy, dequeuedBy, Content.items]
  | @other log a e _ hne ih =>
    have henq : enqueuedBy e = none := by cases e <;> first | rfl | cases hne
    have hdeq : dequeuedBy e = none := by cases e <;> first | rfl | cases hne
    simpa [enqueued_snoc, dequeued_snoc, henq, hdeq] using ih

/-- `*empty_out` is whether the queue is empty afterwards, and only a closed and empty queue yields no item -/
def DequeueOk (k : Call T) (r : Ret T) (a : Content T) : Prop :=
  k = .dequeue → ∃ x emptyOut, r = .item x emptyOut ∧ (emptyOut = true ↔ a.items = []) ∧
    (x = none → a.closed = true ∧ a.items = [])

theorem Fifo.dequeueOk {a a' : Content T} {k : Call T} {r : Ret T} (h : Fifo a k r a') : DequeueOk k r a' := by
  cases h with
  | dequeue p data rest closed =>
    exact fun _ => ⟨_, _, rfl, by simp [Content.items], by simp⟩
  | dequeueClosed => exact fun _ => ⟨_, _, rfl, by simp [Content.items], by simp [Content.items]⟩
  | _ => simp [DequeueOk]

/-! ## The concurrent queue with its log -/

def CQueue.content (c : CQueue Tid T) : Content T := ⟨c.q.nodes, c.closed⟩

/-- the result of the critical section of a call; `none`: it blocks -/
def CQueue.critical (c : CQueue Tid T) : Call T → Option (Ret T)
  | .enqueue _ => some (.flag c.q.isEmpty)
  | .peek => if c.q.isEmpty && !c.closed then none else some (.ptr c.q.peek)
  | .dequeue =>
    if c.q.isEmpty && !c.closed then none
    else if c.q.isEmpty then some (.item Optional.nothing.get true)
    else some (.item c.q.dequeueItem.1.get c.q.dequeueItem.2.1)
  | .waitEmpty => if !c.q.isEmpty then none else some .void
  | .close => some .void

structure Recorded (Tid T : Type) where
  queue : CQueue Tid T
  log : Log Tid T

namespace Recorded

def init : Recorded Tid T := ⟨CQueue.empty, []⟩

/-- what the log says of a step `a` from queue `c` to `c'` -/
def events (c : CQueue Tid T) (a : CQueue.Act Tid T) (c' : CQueue Tid T) : Log Tid T :=
  match a with
  | .call t k => [.invoke t k]
  | .step t _ =>
    match c.pc t with
    | .locked k => ((c.critical k).map fun r => .effect t k r c'.content).toList
    | _ => []
  | .ret t =>
    match c.pc t with
    | .done r => [.respond t r]
    | _ => []
  | .spurious _ => []

def act [DecidableEq Tid] [Fintype Tid] (s : Recorded Tid T) (a : CQueue.Act Tid T) : Option (Recorded Tid T) :=
  (s.queue.act a).map fun queue => ⟨queue, s.log ++ events s.queue a queue⟩

/-- where a thread is in its operation -/
def point : Pc T → Point (Call T) (Ret T)
  | .idle => .out
  | .lock k | .locked k | .waiting k => .invoked k
  | .signalLocked r | .unlock _ r | .signal r | .done r => .effective r

/-! ### Critical sections -/

section Steps

variable [DecidableEq Tid]

theorem point_body (c : CQueue Tid T) (t : Tid) (k : Call T) :
    point ((c.body t k).pc t) = (c.critical k).elim (.invoked k) .effective := by
  cases k with
  | enqueue data => simp [CQueue.body, CQueue.critical, point]
  | peek =>
    simp only [CQueue.body, CQueue.critical]
    split_ifs <;> simp [CQueue.block, point]
  | dequeue =>
    obtain ⟨hitem, hempty, -⟩ := DList.dequeueItem_eq c.q
    simp only [CQueue.body, CQueue.critical, hitem, hempty]
    split_ifs <;> simp [CQueue.block, point, Optional.nothing, Optional.get]
  | waitEmpty =>
    simp only [CQueue.body, CQueue.critical]
    split_ifs <;> simp [CQueue.block, point]
  | close =>
    simp only [CQueue.body, CQueue.critical]
    split_ifs <;> simp [point]

/-- a critical section is a step of the queue for one thread, or it blocks and changes nothing -/
theorem fifo_body (c : CQueue Tid T) (t : Tid) (k : Call T) :
    (∃ r, c.critical k = some r ∧ Fifo c.content k r (c.body t k).content) ∨
      (c.critical k = none ∧ (c.body t k).content = c.content) := by
  have hempty := c.q.isEmpty_eq
  cases k with
  | enqueue data =>
    refine .inl ⟨_, rfl, ?_⟩
    rw [hempty]
    simpa [CQueue.content, CQueue.body, CQueue.goto] using Fifo.enqueue c.q.nodes c.closed c.q.fresh data
  | peek =>
    simp only [CQueue.body, CQueue.critical]
    split_ifs with hblock
    · exact .inr ⟨rfl, rfl⟩
    · refine .inl ⟨_, rfl, ?_⟩
      rw [c.q.peek_eq]
      refine Fifo.peek c.q.nodes c.closed ?_
      by_contra hnone
      rw [not_or, not_not] at hnone
      exact hblock (by simp [hempty, hnone.1, hnone.2])
  | dequeue =>
    obtain ⟨hitem, hflag, -⟩ := DList.dequeueItem_eq c.q
    simp only [CQueue.body, CQueue.critical, hitem, hflag]
    split_ifs with hblock hnone
    · exact .inr ⟨rfl, rfl⟩
    · have hclosed : c.closed = true := by simpa [hnone] using hblock
      refine .inl ⟨_, rfl, ?_⟩
      rw [DList.isEmpty_iff] at hnone
      simpa [CQueue.content, CQueue.goto, hnone, hclosed, Optional.nothing, Optional.get] using Fifo.dequeueClosed
    · refine .inl ⟨_, rfl, ?_⟩
      obtain ⟨⟨p, x⟩, rest, hnodes⟩ := List.exists_cons_of_ne_nil (mt (DList.isEmpty_iff _).2 hnone)
      obtain ⟨hfst, hrest, -⟩ := DList.dequeue_cons hnodes
      simpa [CQueue.content, CQueue.goto, hnodes, hfst, hrest, DList.isEmpty_eq] using Fifo.dequeue p x rest c.closed
  | waitEmpty =>
    simp only [CQueue.body, CQueue.critical]
    split_ifs with hnone
    · exact .inr ⟨rfl, rfl⟩
    · refine .inl ⟨_, rfl, ?_⟩
      have hnodes : c.q.nodes = [] := (DList.isEmpty_iff _).1 (by simpa using hnone)
      simpa [CQueue.content, CQueue.goto, hnodes] using Fifo.waitEmpty c.closed
  | close =>
    refine .inl ⟨_, rfl, ?_⟩
    have hclose := Fifo.close c.q.nodes c.closed
    simp only [CQueue.body]
    split_ifs with hopen
    · exact hclose
    · have hclosed : c.closed = true := by simpa using hopen
      simpa [CQueue.content, CQueue.goto, hclosed] using hclose

/-! ### Steps and runs -/

omit [DecidableEq Tid] in
theorem point_wakeUp (woken : Tid → Bool) (pc : Tid → Pc T) (t : Tid) :
    point (CQueue.wakeUp woken pc t) = point (pc t) := by
  unfold CQueue.wakeUp
  split
  · next k hpc =>
    rw [hpc]
    split <;> rfl
  · rfl

theorem point_goto (c : CQueue Tid T) (t u : Tid) {p : Pc T} (hp : point p = point (c.pc t)) :
    point ((c.goto t p).pc u) = point (c.pc u) := by
  by_cases hu : u = t
  · subst hu
    rw [CQueue.goto_pc, hp]
  · rw [CQueue.goto_pc_ne c hu]

variable [Fintype Tid]

/-- a step outside a critical section keeps the content, and every thread where it is in its operation -/
theorem step_quiet {c c' : CQueue Tid T} {t : Tid} {woken : Tid → Bool} (hs : c.step t woken = some c')
    (hlocked : ∀ k, c.pc t ≠ .locked k) : c'.content = c.content ∧ ∀ u, point (c'.pc u) = point (c.pc u) := by
  rcases CQueue.step_cases hs with ⟨k, hpc, -, rfl⟩ | ⟨k, hpc, rfl⟩ | ⟨r, hpc, -, rfl⟩ | ⟨sig, r, hpc, rfl⟩ |
    ⟨r, hpc, -, rfl⟩
  · exact ⟨rfl, fun u => point_goto c t u (by rw [hpc]; rfl)⟩
  · exact absurd hpc (hlocked k)
  · refine ⟨rfl, fun u => ?_⟩
    rw [point_goto _ t u (by simp [CQueue.wakeUp, hpc, point]), point_wakeUp]
  · refine ⟨rfl, fun u => point_goto c t u ?_⟩
    rw [hpc]
    cases sig <;> rfl
  · refine ⟨rfl, fun u => ?_⟩
    rw [point_goto _ t u (by simp [CQueue.wakeUp, hpc, point]), point_wakeUp]

/-- **The invariant.** Every thread is where its events say, and the effects lead to the queue's content. -/
structure Inv (s : Recorded Tid T) : Prop where
  legal : ∀ t, Legal t s.log (point (s.queue.pc t))
  effects : Effects Fifo ⟨[], false⟩ s.log s.queue.content

omit [DecidableEq Tid] [Fintype Tid] in
theorem inv_init : Inv (init : Recorded Tid T) := ⟨fun _ => .start, .start⟩

omit [Fintype Tid] in
/-- one event of thread `t`, which goes to point `p` -/
theorem Inv.event {s : Recorded Tid T} (h : Inv s) {t : Tid} {c : CQueue Tid T} {p : Pc T}
    {e : Event Tid (Call T) (Ret T) (Content T)} (hpc : c.pc = Function.update s.queue.pc t p) (ht : e.thread = t)
    (hlegal : Legal t (s.log ++ [e]) (point p)) (heff : Effects Fifo ⟨[], false⟩ (s.log ++ [e]) c.content) :
    Inv ⟨c, s.log ++ [e]⟩ := by
  refine ⟨fun u => ?_, heff⟩
  dsimp only
  rw [hpc]
  by_cases hu : u = t
  · subst hu
    rwa [Function.update_self]
  · rw [Function.update_of_ne hu]
    exact (h.legal u).other (by rw [ht]; exact Ne.symm hu)

theorem inv_step {s : Recorded Tid T} (h : Inv s) {t : Tid} {woken : Tid → Bool} {c : CQueue Tid T}
    (hs : s.queue.step t woken = some c) : Inv ⟨c, s.log ++ events s.queue (.step t woken) c⟩ := by
  by_cases hlocked : ∃ k, s.queue.pc t = .locked k
  · obtain ⟨k, hpc⟩ := hlocked
    have hc : c = s.queue.body t k := by
      simp only [CQueue.step, hpc, Option.some.injEq] at hs
      exact hs.symm
    subst hc
    have hpoint := point_body s.queue t k
    rcases fifo_body s.queue t k with ⟨r, hr, hfifo⟩ | ⟨hr, hsame⟩
    · rw [hr] at hpoint
      refine ⟨fun u => ?_, ?_⟩
      · simp only [events, hpc, hr, Option.map_some, Option.toList_some]
        by_cases hu : u = t
        · subst hu
          rw [hpoint]
          have hold : Legal u s.log (.invoked k) := by
            have := h.legal u
            rwa [hpc] at this
          exact hold.effect
        · rw [CQueue.body_pc_ne _ hu]
          exact (h.legal u).other (Ne.symm hu)
      · simp only [events, hpc, hr, Option.map_some, Option.toList_some]
        exact h.effects.effect hfifo
    · rw [hr] at hpoint
      simp only [events, hpc, hr, Option.map_none, Option.toList_none, List.append_nil]
      refine ⟨fun u => ?_, by rw [hsame]; exact h.effects⟩
      by_cases hu : u = t
      · subst hu
        rw [hpoint]
        have hold := h.legal u
        rwa [hpc] at hold
      · rw [CQueue.body_pc_ne _ hu]
        exact h.legal u
  · rw [not_exists] at hlocked
    obtain ⟨hcontent, hpoint⟩ := step_quiet hs hlocked
    have hevents : events s.queue (.step t woken) c = [] := by
      simp only [events]
    rw [hevents, List.append_nil]
    refine ⟨fun u => ?_, by rw [hcontent]; exact h.effects⟩
    rw [hpoint]
    exact h.legal u

/-- **Step lemma.** -/
theorem inv_act {s s' : Recorded Tid T} {a : CQueue.Act Tid T} (h : Inv s) (hs : s.act a = some s') : Inv s' := by
  obtain ⟨c, hc, rfl⟩ := Option.map_eq_some_iff.1 hs
  cases a with
  | call t k =>
    obtain ⟨hpc, rfl⟩ := CQueue.call_some hc
    have hold := h.legal t
    rw [hpc] at hold
    exact h.event rfl rfl hold.invoke (h.effects.other rfl)
  | step t woken => exact inv_step h hc
  | ret t =>
    obtain ⟨⟨r, d⟩, hd, rfl⟩ := Option.map_eq_some_iff.1 hc
    obtain ⟨hpc, rfl⟩ := CQueue.take_some hd
    have hold := h.legal t
    rw [hpc] at hold
    simp only [events, hpc]
    exact h.event rfl rfl hold.respond (h.effects.other rfl)
  | spurious t =>
    obtain ⟨k, hpc, rfl⟩ := CQueue.spurious_some hc
    simp only [events, List.append_nil]
    refine ⟨fun u => ?_, h.effects⟩
    rw [point_goto s.queue t u (by rw [hpc]; rfl)]
    exact h.legal u

theorem inv_run {as : List (CQueue.Act Tid T)} {s : Recorded Tid T} (hr : run act init as = some s) : Inv s :=
  run_inv (I := Inv) inv_init (fun _ _ _ h hs => inv_act h hs) hr

/-- **Linearizable FIFO.** In every run: each call takes effect once, at its critical section, and returns its result;
the critical sections are, in order, a run of the queue for one thread; the items enqueued are those dequeued followed
by the content; `*empty_out` is whether the queue was empty at the end of the critical section, and only a closed and
empty queue yields no item; and what a call returned is what its critical section yielded. -/
theorem fifo {as : List (CQueue.Act Tid T)} {s : Recorded Tid T} (hr : run act init as = some s) :
    Linearized Fifo ⟨[], false⟩ s.log s.queue.content ∧
    enqueued s.log = dequeued s.log ++ s.queue.content.items ∧
    (∀ t k r a, .effect t k r a ∈ s.log → DequeueOk k r a) ∧
    ∀ t r, .respond t r ∈ s.log → ∃ k a, .effect t k r a ∈ s.log := by
  have h := inv_run hr
  refine ⟨⟨fun t => ⟨_, h.legal t⟩, h.effects⟩, enqueued_eq h.effects, ?_, fun t => (h.legal t).effect_mem.2⟩
  exact h.effects.all fun _ _ _ _ hspec => hspec.dequeueOk

/-- two threads enqueue, and one dequeues -/
theorem fifo_two : ∃ s : Recorded Bool ℕ,
    run act init (CQueue.enter true (.enqueue 1) 4 (fun _ => true) ++
      CQueue.enter false (.enqueue 2) 3 (fun _ => true) ++ [.ret true] ++
      CQueue.enter true .dequeue 4 (fun _ => true)) = some s ∧
      dequeued s.log = [1] ∧ enqueued s.log = 1 :: s.queue.content.items := by
  obtain ⟨s, hr, hdeq⟩ : ∃ s : Recorded Bool ℕ,
      run act init (CQueue.enter true (.enqueue 1) 4 (fun _ => true) ++
        CQueue.enter false (.enqueue 2) 3 (fun _ => true) ++ [.ret true] ++
        CQueue.enter true .dequeue 4 (fun _ => true)) = some s ∧ dequeued s.log = [1] := ⟨_, rfl, rfl⟩
  refine ⟨s, hr, hdeq, ?_⟩
  rw [(fifo hr).2.1, hdeq]
  rfl

end Steps

end Recorded

end K23Search
