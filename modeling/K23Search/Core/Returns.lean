/-
Liveness of the engine: the calls of the client return, for every order of the steps of the threads.

`Lively` is what a reachable state has besides `Known`: the mutex of `finished_results` is held by one thread, a client
that waits for a record that is there has a signal to come, and the new query is not registered yet. Together they say
that the engine is not stuck: a thread that has to wait, waits for one that can go on.

Results:
- `lively`: it holds in every reachable state;
- `enabled`: in a call, some thread can take a step, and no step it has to take is undefined;
- `client_call_returns`: a call of a process that has thrown nothing ends after finitely many steps, whichever threads
  take them. `GetNextAvailRes` does so when a document has been submitted that was not returned yet.

Witness: `client_call_returns_document`.
-/
import K23Search.Concurrency.Wakeups
import K23Search.Concurrency.WorkerLoop
import K23Search.Core.Process
import K23Search.Core.Variant
import K23Search.Core.Window
import K23Search.Lib.Progress

namespace K23Search.Core

open K23Search.Lib K23Search.Text
open CQueue (Pc Call Ret)

/-! ## The calls of `finished_results` -/

section Queue

variable {n : ℕ} [NeZero n] {s s' : State n} {a : Act n}

/-- a step does one step of `finished_results`, or none -/
theorem Move.finished_act (hm : Move s a s') : s'.finishedResults = s.finishedResults ∨
    ∃ b, s.finishedResults.act b = some s'.finishedResults := by
  cases hm
  case getNextAvailRes hq => exact .inr ⟨.call none .peek, hq⟩
  case read hq => exact .inr ⟨.call none .dequeue, hq⟩
  case move i _ _ _ res _ _ _ _ hq => exact .inr ⟨.call (some i) (.enqueue res), hq⟩
  case peekedNone hq | peeked hq | dequeued hq => exact .inr ⟨.ret none, by rw [CQueue.act, hq]; rfl⟩
  case moved i _ _ _ _ _ _ _ hq => exact .inr ⟨.ret (some i), by rw [CQueue.act, hq]; rfl⟩
  case clientQueue woken _ _ hq => exact .inr ⟨.step none woken, hq⟩
  case workQueue i c _ _ _ _ _ hq => exact .inr ⟨.step (some i) c.woken, hq⟩
  case spurious t _ hq => exact .inr ⟨.spurious t, hq⟩
  all_goals exact .inl rfl

omit [NeZero n] in
/-- only the client waits for `finished_results` -/
theorem Calls.waits (h : Calls s) {t : Option (Fin n)} (ht : (s.finishedResults.pc t).isWaiting = true) : t = none := by
  cases t with
  | none => rfl
  | some k =>
    cases hp : s.finishedResults.pc (some k) with
    | waiting c => exact absurd hp ((h.worker k).not_waiting c)
    | _ =>
      rw [hp] at ht
      cases ht

/-- there is a record to read -/
def HasRecord (_closed empty : Bool) : Prop := empty = false

omit [NeZero n] in
/-- a signal reaches the client, if it waits: there is no other thread that it could wake -/
theorem Calls.heeded (h : Calls s) {b : CQueue.Act (Option (Fin n)) DocumentResults}
    {q : CQueue (Option (Fin n)) DocumentResults} (hb : s.finishedResults.act b = some q) :
    CQueue.Heeded HasRecord s.finishedResults b := by
  cases b with
  | call | ret | spurious => trivial
  | step t woken =>
    rintro hsends ⟨⟨u, hu⟩, -⟩
    suffices hok : s.finishedResults.SignalOk woken by
      obtain ⟨v, hv, hwoken⟩ := hok ⟨u, CQueue.Pc.waiting_of_reader hu⟩
      refine .inr (.inr fun w hw => ?_)
      rw [h.waits (CQueue.Pc.waiting_of_reader hw), ← h.waits hv]
      exact hwoken
    rcases CQueue.step_cases hb with ⟨k, hpc, -⟩ | ⟨k, hpc, -⟩ | ⟨r, -, hok, -⟩ | ⟨sig, r, hpc, -⟩ | ⟨r, -, hok, -⟩
    · rw [hpc] at hsends
      cases hsends
    · rw [hpc] at hsends
      cases hsends
    · exact hok
    · rw [hpc] at hsends
      cases hsends
    · exact hok

end Queue

/-! ## The invariant -/

structure Lively {n : ℕ} (s : State n) : Prop where
  mutex : s.finishedResults.MutexInv
  /-- a client that waits while there is a record is about to be woken -/
  heard : s.finishedResults.Heard HasRecord
  /-- the query that `StartQuery` has made has no place in the table yet -/
  unregistered : ∀ p q, s.client.newQuery = some p → s.heap[p]? = some q → s.queries.get q.id = none

section Lively

variable {n : ℕ} [NeZero n] {s s' : State n} {a : Act n} {as : List (Act n)}

/-- the new query has an id that no call before had -/
theorem Move.unregistered (hm : Move s a s') (h : Registry as s) (hd : DistinctCalls (as ++ [a]))
    (hold : ∀ p q, s.client.newQuery = some p → s.heap[p]? = some q → s.queries.get q.id = none) {p : ℕ} {q : Query}
    (hp : s'.client.newQuery = some p) (hq : s'.heap[p]? = some q) : s'.queries.get q.id = none := by
  cases hm
  case startQuery id str t dist words hcl hw =>
    cases hp
    have hid : q.id = id := by
      rcases getElem?_snoc hq with hlt | ⟨-, rfl⟩
      · exact absurd (List.getElem?_eq_some_iff.1 hlt).1 (lt_irrefl _)
      · rfl
    by_contra hne
    obtain ⟨p', hp'⟩ := Option.ne_none_iff_exists'.1 hne
    obtain ⟨q', hq', hid'⟩ := h.found _ p' hp'
    have hmem : q'.id ∈ s.heap.map Query.id := List.mem_map_of_mem (List.mem_of_getElem? hq')
    rw [h.ids] at hmem
    refine hd.new_start rfl ((started_ids_sublist as).subset ?_)
    rwa [← hid, ← hid']
  case submitJob hcl | count hcl _ => exact hold p q (by rw [hcl]; exact hp) hq
  case matchDocument =>
    dsimp only at hp
    split at hp <;> cases hp
  case badQuery | register | endUnknown | ended | cleared | append | parse | submitDoc | peekedNone | peeked | read |
      dequeued | endQuery | getNextAvailRes =>
    cases hp
  all_goals exact hold p q hp hq

theorem Lively.step (h : Lively s) (hcalls : Calls s) (hreg : Registry as s) (hd : DistinctCalls (as ++ [a]))
    (hm : Move s a s') : Lively s' := by
  refine ⟨?_, ?_, fun p q hp hq => hm.unregistered hreg hd h.unregistered hp hq⟩
  · rcases hm.finished_act with heq | ⟨b, hb⟩
    · rw [heq]
      exact h.mutex
    · exact CQueue.mutex_act h.mutex hb
  · rcases hm.finished_act with heq | ⟨b, hb⟩
    · rw [heq]
      exact h.heard
    · exact CQueue.heard_act (by simp [HasRecord]) h.heard (hcalls.heeded hb) hb

theorem lively_init : Lively (State.init : State n) where
  mutex t := by simp [State.init, CQueue.empty, Pc.holds]
  heard := CQueue.heard_empty HasRecord
  unregistered p q hp := nomatch hp

theorem lively (hr : run State.step State.init as = some s) (hd : DistinctCalls as) : Lively s := by
  refine run_induction (G := fun _ _ _ => True) (I := fun as s => DistinctCalls as → Lively s) (fun _ => lively_init)
    (fun bs t a t' hbs _ ih hs hd => ?_) (meets_true _ _ _) hr hd
  exact (ih hd.init).step (way hbs).calls (registry hbs hd.init) hd (step_move hs)

end Lively

/-! ## No deadlock -/

/-- every action but a spurious wake-up -/
def Act.ofProgram {n : ℕ} : Act n → Bool
  | .spurious _ => false
  | _ => true

/-- some thread can take a step -/
def State.Enabled {n : ℕ} [NeZero n] (s : State n) : Prop := ∃ a t, Act.ofProgram a = true ∧ s.step a = some t

/-- a choice that wakes every thread -/
def wakeAll {n : ℕ} (order : List ℕ) : Choice n := ⟨⟨0, bkTreeSkipListLevels_pos⟩, fun _ => true, order⟩

section Enabled

variable {n : ℕ} [NeZero n] {s : State n} {as : List (Act n)} {i : Fin n} {node : ℕ} {r : DocRun}

theorem enabled_work {c : Choice n} {t : State n} (hr : s.docRun i = some (node, r)) (h : s.matchDoc i node r c = some t) :
    s.Enabled := by
  obtain ⟨hw, hhead⟩ := docRun_some.1 hr
  exact ⟨.work i c, t, rfl, by simp only [State.step, State.workStep, hw, hhead, h]⟩

/-- a worker inside `enqueue` goes on, unless it has to wait for the lock -/
theorem worker_call_step (hc : Control s.jobs s.work) (hcalls : Calls s)
    (hidle : s.finishedResults.pc (some i) ≠ .idle)
    (hlock : ∀ k, s.finishedResults.pc (some i) = .lock k → s.finishedResults.mutex = none) : s.Enabled := by
  obtain ⟨r, hw, hpc⟩ : ∃ r, s.work i = .matching r ∧ r.pc = .enqueuing := by
    by_contra hno
    exact hidle ((hcalls.worker i).idle fun r hr hpc => hno ⟨r, hr, hpc⟩)
  have hi := hc i
  rw [hw] at hi
  obtain ⟨-, -, node, rest, hqueue⟩ := hi
  have hr : s.docRun i = some (node, r) := docRun_some.2 ⟨hw, by rw [hqueue]; rfl⟩
  have hwait : (s.finishedResults.pc (some i)).isWaiting = false := by
    by_contra hwait
    cases hcalls.waits (Bool.not_eq_false _ ▸ hwait : (s.finishedResults.pc (some i)).isWaiting = true)
  rcases CQueue.take_or_step hidle hwait hlock with ⟨x, -, htake⟩ | ⟨htake, q, hstep⟩
  · exact enabled_work hr (c := wakeAll []) (by simp only [State.matchDoc, hpc, htake]; rfl)
  · exact enabled_work hr (c := wakeAll []) (by simp only [State.matchDoc, hpc, htake, wakeAll, hstep]; rfl)

/-- the client inside `peek` or `dequeue` goes on, unless it waits -/
theorem client_call_step (hcalls : Calls s) (hidle : s.finishedResults.pc none ≠ .idle)
    (hwait : (s.finishedResults.pc none).isWaiting = false)
    (hlock : ∀ k, s.finishedResults.pc none = .lock k → s.finishedResults.mutex = none) : s.Enabled := by
  have hcl := hcalls.client
  rcases CQueue.take_or_step hidle hwait hlock with ⟨x, hdone, htake⟩ | ⟨htake, q, hstep⟩
  · cases hc : s.client with
    | peeking =>
      rw [hc, hdone] at hcl
      obtain ⟨p, rfl⟩ : ∃ p, x = .ptr (some p) := by
        rcases x with _ | (_ | p) | _ | _
        · exact hcl.elim
        · exact hcl.elim
        · exact ⟨p, rfl⟩
        · exact hcl.elim
        · exact hcl.elim
      exact ⟨.client fun _ => true, _, rfl, by simp only [State.step, State.clientStep, hc, htake]; rfl⟩
    | dequeuing res =>
      exact ⟨.client fun _ => true, _, rfl, by simp only [State.step, State.clientStep, hc, htake]; rfl⟩
    | peeked p =>
      rw [hc, hdone] at hcl
      cases hcl.1
    | _ =>
      rw [hc, hdone] at hcl
      cases hcl
  · cases hc : s.client with
    | peeking | dequeuing res =>
      exact ⟨.client fun _ => true, _, rfl, by simp only [State.step, State.clientStep, hc, htake, hstep]; rfl⟩
    | peeked p =>
      rw [hc] at hcl
      exact absurd hcl.1 hidle
    | _ =>
      rw [hc] at hcl
      exact absurd hcl hidle

/-- **The lock.** A thread in a call of `finished_results` that does not wait for a signal goes on, or waits for the
holder of the lock, which goes on. -/
theorem call_enabled (hc : Control s.jobs s.work) (hcalls : Calls s) (hl : Lively s) {t : Option (Fin n)}
    (hidle : s.finishedResults.pc t ≠ .idle) (hwait : (s.finishedResults.pc t).isWaiting = false) : s.Enabled := by
  have hgo : ∀ t, s.finishedResults.pc t ≠ .idle → (s.finishedResults.pc t).isWaiting = false →
      (∀ k, s.finishedResults.pc t = .lock k → s.finishedResults.mutex = none) → s.Enabled := by
    intro t hidle hwait hlock
    cases t with
    | none => exact client_call_step hcalls hidle hwait hlock
    | some i => exact worker_call_step hc hcalls hidle hlock
  cases hmutex : s.finishedResults.mutex with
  | none => exact hgo t hidle hwait fun _ _ => hmutex
  | some u =>
    have hholds := (hl.mutex u).1 hmutex
    refine hgo u (fun h => ?_) ?_ fun k h => ?_
    · rw [h] at hholds
      cases hholds
    · by_contra hw
      rw [CQueue.holds_of_waiting (Bool.not_eq_false _ ▸ hw)] at hholds
      cases hholds
    · rw [h] at hholds
      cases hholds

/-- the words of a document that is short enough have trees -/
theorem hasTrees_of_shorter {str : List UInt8} (hv : ValidText str) (hs : Shorter str) : HasTrees (words 32 str) := by
  intro w hw
  have hne := hs _ (tokens_valid hv) w hw
  obtain ⟨hmin, hmax⟩ := hv.lengths w hw
  have hsize : hammingBkTrees = maxWordLength - minWordLength := rfl
  omega

variable (h : Known as s)

include h

/-- a worker in a job of a `match_doc` goes on: no search and no recording is undefined -/
theorem task_enabled (hshort : ∀ a ∈ as, a.Shorter)
    (hwindow : ∀ d doc, (d, doc) ∈ documents as → Window d doc as s) (hr : s.docRun i = some (node, r)) {j : Fin 3}
    (hidle : r.tasks j ≠ .idle) (hdone : r.tasks j ≠ .done) : s.Enabled := by
  obtain ⟨node', res, hr', hres, -, hcall, -⟩ := h.records.docRun (docRun_some.1 hr).1
  cases hr.symm.trans hr'
  have hd := h.document hres
  have hs := hwindow _ _ hd
  have htrees : HasTrees (words 32 res.docStr) := hasTrees_of_shorter (h.valid.acts _ hcall) (hshort _ hcall)
  obtain ⟨job, hhead⟩ : ∃ job, (r.sub.queue j).head? = some job := by
    obtain ⟨job, rest, heq⟩ := List.exists_cons_of_ne_nil ((h.records.control.docRun_ok hr).busy hidle).2
    exact ⟨job, by rw [heq]; rfl⟩
  have hgo : ∀ t, s.taskStep i node r j = some t → s.Enabled := fun t ht =>
    ⟨.task i j, t, rfl, by simp only [State.step, hr, Option.bind_some, ht]⟩
  cases ht : r.tasks j with
  | idle => exact absurd ht hidle
  | done => exact absurd ht hdone
  | called => cases job <;> exact hgo _ (by simp only [State.taskStep, ht, hhead]; rfl)
  | searching keys =>
    cases keys with
    | nil => exact hgo _ (by simp only [State.taskStep, ht, hhead]; rfl)
    | cons key keys =>
      obtain ⟨hkey, ix, w, t, hj⟩ := Window.task_keys hs hr hres rfl key (by rw [ht]; exact List.mem_cons_self)
      obtain ⟨t', w', hjob, hw, hmin, hmax⟩ := h.head_job hd hr hres rfl hj
      obtain ⟨rfl, rfl⟩ : t' = t ∧ w' = w := by cases t' <;> cases hjob <;> exact ⟨rfl, rfl⟩
      obtain ⟨tree, htree, hmem⟩ : ∃ tree, s.index.tree ix = some tree ∧ w' ∈ ix.words := by
        cases t' with
        | exactMatch => cases hjob
        | editDist =>
          cases hjob
          exact ⟨_, rfl, hmax⟩
        | hammingDist =>
          cases hjob
          refine ⟨s.index.hamming (w'.length - minWordLength), ?_, mem_hammingTree hmin hmax⟩
          rw [hammingTree_eq hmin hmax]
          exact if_pos (htrees w' hw)
      obtain ⟨calls, hcalls, -⟩ := Index.search_spec h.index.ok htree hmem hkey s.heap
      exact hgo _ (by simp only [State.taskStep, ht, hj, hcalls, Option.map_some]; rfl)
  | adding calls keys =>
    cases calls with
    | nil => exact hgo _ (by simp only [State.taskStep, ht, hhead]; rfl)
    | cons call calls =>
      obtain ⟨rt, hrt, -⟩ := Window.add_defined h hs hr hres rfl ht
      exact hgo _ (by simp only [State.taskStep, ht, hhead, hres, Option.bind_some, hrt, Option.map_some]; rfl)

/-- a running `match_doc` goes on -/
theorem run_enabled (hcalls : Calls s) (hl : Lively s) (hshort : ∀ a ∈ as, a.Shorter)
    (hwindow : ∀ d doc, (d, doc) ∈ documents as → Window d doc as s) (hr : s.docRun i = some (node, r)) : s.Enabled := by
  obtain ⟨hw, hhead⟩ := docRun_some.1 hr
  have hok := h.records.control.docRun_ok hr
  obtain ⟨res, hres⟩ := h.records.nodes.live (mem_jobsBefore_run hr)
  have hidle : r.pc ≠ .enqueuing → s.finishedResults.pc (some i) = .idle := fun hne =>
    (hcalls.worker i).idle fun r' hr' => by cases hw.symm.trans hr'; exact hne
  cases hpc : r.pc with
  | submitting rest =>
    cases rest <;> exact enabled_work hr (c := wakeAll []) (by simp only [State.matchDoc, hpc]; rfl)
  | waiting =>
    by_cases hdone : r.sub.Done
    · obtain ⟨t, ht⟩ : ∃ t, s.matchDoc i node r (wakeAll (answers s.heap res.results)) = some t := by
        simp only [State.matchDoc, hpc, if_pos hdone, hres, Option.bind_some]
        exact ⟨_, if_pos (List.Perm.refl _)⟩
      exact enabled_work hr ht
    · -- a worker of its scheduler has a job
      obtain ⟨j, hne⟩ : ∃ j, r.sub.queue j ≠ [] := by
        by_contra hno
        exact hdone fun j => by_contra fun hne => hno ⟨j, hne⟩
      have hj := hok j
      by_cases ht : r.tasks j = .idle
      · rw [ht] at hj
        have hstart : r.sub.start j = some _ := if_pos ⟨hj, hne⟩
        exact ⟨.startTask i j, _, rfl, by simp only [State.step, hr, Option.bind_some, hstart]; rfl⟩
      · by_cases ht' : r.tasks j = .done
        · rw [ht'] at hj
          have hfinish : r.sub.finish j = some _ := if_pos hj.1
          exact ⟨.finishTask i j, _, rfl, by simp only [State.step, hr, Option.bind_some, ht', hfinish]; rfl⟩
        · exact task_enabled h hshort hwindow hr ht ht'
  | moving =>
    obtain ⟨q, hcall⟩ : ∃ q, s.finishedResults.call (some i) (.enqueue res) = some q :=
      ⟨s.finishedResults.goto (some i) (.lock (.enqueue res)), by rw [CQueue.call, hidle (by simp [hpc])]⟩
    exact enabled_work hr (c := wakeAll []) (by simp only [State.matchDoc, hpc, hres, Option.bind_some, hcall]; rfl)
  | enqueuing =>
    have hi := hcalls.worker i
    rw [hw] at hi
    simp only [WorkerCall, hpc] at hi
    refine call_enabled h.records.control hcalls hl (t := some i) (fun hp => ?_) ?_
    · rw [hp] at hi
      exact hi.elim
    · by_contra hwait
      cases hcalls.waits (Bool.not_eq_false _ ▸ hwait : (s.finishedResults.pc (some i)).isWaiting = true)
  | unlinking =>
    have hmem : node ∈ s.docs.nodes.map Prod.fst := List.mem_map_of_mem (DList.get_eq.1 hres)
    obtain ⟨docs, hdocs, -⟩ := DList.remove_eq hmem
    exact enabled_work hr (c := wakeAll []) (by simp only [State.matchDoc, hpc, hdocs]; rfl)

/-- **Workers.** A worker with a job goes on. -/
theorem worker_enabled (hcalls : Calls s) (hl : Lively s) (hshort : ∀ a ∈ as, a.Shorter)
    (hwindow : ∀ d doc, (d, doc) ∈ documents as → Window d doc as s) (hne : s.jobs.queue i ≠ []) : s.Enabled := by
  have hi := h.records.control i
  obtain ⟨job, rest, hqueue⟩ := List.exists_cons_of_ne_nil hne
  have hhead : (s.jobs.queue i).head? = some job := by rw [hqueue]; rfl
  cases hw : s.work i with
  | idle =>
    rw [hw] at hi
    have hstart : s.jobs.start i = some _ := if_pos ⟨hi, hne⟩
    exact ⟨.start i, _, rfl, by simp only [State.step, hstart]; rfl⟩
  | done =>
    rw [hw] at hi
    have hfinish : s.jobs.finish i = some _ := if_pos hi.1
    exact ⟨.finish i, _, rfl, by simp only [State.step, hw, hfinish]; rfl⟩
  | matching r =>
    obtain ⟨node, -, hr, -⟩ := h.records.docRun hw
    exact run_enabled h hcalls hl hshort hwindow hr
  | called =>
    have hgo : ∀ t, s.workStep i (wakeAll []) = some t → s.Enabled := fun t ht => ⟨.work i (wakeAll []), t, rfl, ht⟩
    have hmem : job ∈ s.jobs.queue i := List.mem_of_mem_head? hhead
    cases job with
    | addToHashTable q u => exact hgo _ (by simp only [State.workStep, hw, hhead]; rfl)
    | matchDoc node =>
      have hbefore : .matchDoc node ∈ s.jobsBefore .unlinked i := by
        simp only [State.jobsBefore, hw]
        exact hmem
      obtain ⟨res, hres⟩ := h.records.nodes.live hbefore
      exact hgo _ (by simp only [State.workStep, hw, hhead, hres]; rfl)
    | addToTree q u tree =>
      have hproper := h.records.jobs.proper i _ hmem
      obtain ⟨t, ht⟩ : ∃ t, s.index.tree tree = some t := by
        cases tree with
        | edit => exact ⟨_, rfl⟩
        | hamming k => exact ⟨_, if_pos (hproper.subscript h.records.heap h.valid.text hshort).1⟩
      obtain ⟨ix', hins, -⟩ := Index.addToTree_spec h.index.ok ht (hproper.words h.wordsFit) q bkTreeSkipListLevels_pos
      exact hgo _ (by simp only [State.workStep, hw, hhead, wakeAll, hins]; rfl)

omit h in
/-- a client that waits for a record, with a document that was not returned yet: the record is there and a signal to
come, or a worker has a job -/
theorem peek_enabled (hcalls : Calls s) (hl : Lively s) (hcons : Conserved s)
    (hjobs : ∀ i, s.jobs.queue i ≠ [] → s.Enabled) (hc : Control s.jobs s.work)
    (hwait : (s.finishedResults.pc none).reader = true) (hmore : s.results.length < s.submitted.length) : s.Enabled := by
  have hopen : ∀ t, s.finishedResults.pc t ≠ .idle → t ≠ none → s.Enabled := fun t ht hne =>
    call_enabled hc hcalls hl ht (by
      by_contra hw
      exact hne (hcalls.waits (Bool.not_eq_false _ ▸ hw)))
  cases hempty : s.finishedResults.q.isEmpty with
  | false =>
    obtain ⟨t, ht⟩ := hl.heard ⟨⟨none, hwait⟩, hempty⟩
    refine hopen t (fun hidle => ?_) ?_
    · rw [hidle] at ht
      cases ht
    · rintro rfl
      cases hp : s.finishedResults.pc none with
      | waiting k =>
        rw [hp] at ht
        cases ht
      | _ =>
        rw [hp] at hwait
        cases hwait
  | true =>
    have hnodes := (DList.isEmpty_iff _).1 hempty
    by_contra hstuck
    have hdone : s.docsBefore .handed = 0 := by
      refine Multiset.eq_zero_of_forall_notMem fun x hx => ?_
      obtain ⟨i, j, hj, -⟩ := mem_before.1 hx
      exact hstuck (hjobs i (List.ne_nil_of_mem (jobsBefore_subset s _ i hj)))
    have hcard := congrArg Multiset.card hcons.handed
    rw [hdone, State.finished, hnodes, State.returned] at hcard
    simp at hcard
    omega

/-- **No deadlock.** In a call, some thread can take a step. -/
theorem enabled (hl : Lively s) (hcalls : Calls s) (hcons : Conserved s) (hshort : ∀ a ∈ as, a.Shorter)
    (hwindow : ∀ d doc, (d, doc) ∈ documents as → Window d doc as s) (hbusy : s.client ≠ .idle)
    (hmore : s.client = .peeking → s.results.length < s.submitted.length) : s.Enabled := by
  have hjobs : ∀ i, s.jobs.queue i ≠ [] → s.Enabled := fun i hne => worker_enabled h hcalls hl hshort hwindow hne
  have hwait : ¬ s.jobs.Done → s.Enabled := fun hnot => by
    obtain ⟨i, hi⟩ := not_forall.1 hnot
    exact hjobs i hi
  have hgo : ∀ t, s.clientStep (fun _ => true) = some t → s.Enabled := fun t ht => ⟨.client fun _ => true, t, rfl, ht⟩
  have hnode : ∀ node, node ∈ s.client.node → ∃ res, s.docs.get node = some res := by
    intro node hmem
    have hin : node ∈ (s.docs.nodes.map Prod.fst : Multiset ℕ) := by
      rw [← show _ = _ from h.records.nodes]
      exact Multiset.mem_add.2 (.inr hmem)
    obtain ⟨⟨a, res⟩, hv, rfl⟩ := List.mem_map.1 (Multiset.mem_coe.1 hin)
    exact ⟨res, DList.get_eq.2 hv⟩
  have hcl := hcalls.client
  cases hc : s.client with
  | idle => exact absurd hc hbusy
  | starting q rest =>
    cases rest with
    | cons j rest => exact hgo _ (by simp only [State.clientStep, hc]; rfl)
    | nil =>
      obtain ⟨-, query, hq, -⟩ := h.registry.new q (by rw [hc]; rfl)
      exact hgo _ (by simp only [State.clientStep, hc, hq]; rfl)
  | registering q =>
    obtain ⟨-, query, hq, -⟩ := h.registry.new q (by rw [hc]; rfl)
    have hnew := hl.unregistered q query (by rw [hc]; rfl) hq
    exact hgo _ (by simp only [State.clientStep, hc, State.register, hq, Option.bind_some, hnew]; rfl)
  | ending id =>
    by_cases hdone : s.jobs.Done
    · cases hget : s.queries.get id with
      | none => exact hgo _ (by simp only [State.clientStep, hc, if_pos hdone, State.endQuery, hget]; rfl)
      | some q =>
        obtain ⟨query, hq, -⟩ := h.registry.found id q hget
        exact hgo _ (by simp only [State.clientStep, hc, if_pos hdone, State.endQuery, hget, hq]; rfl)
    · exact hwait hdone
  | clearing d str =>
    by_cases hdone : s.jobs.Done
    · exact hgo _ (by simp only [State.clientStep, hc, if_pos hdone]; rfl)
    · exact hwait hdone
  | appending d str => exact hgo _ (by simp only [State.clientStep, hc]; rfl)
  | parsing node =>
    obtain ⟨res, hres⟩ := hnode node (by rw [hc]; exact List.mem_singleton_self _)
    have htext : ValidText res.docStr := h.valid.acts _ (h.records.texts.called node res hres)
    exact hgo _ (by simp only [State.clientStep, hc, hres, Option.bind_some, tokens_valid htext]; rfl)
  | submitting node =>
    obtain ⟨res, hres⟩ := hnode node (by rw [hc]; exact List.mem_singleton_self _)
    exact hgo _ (by simp only [State.clientStep, hc, hres]; rfl)
  | peeked p =>
    rw [hc] at hcl
    obtain ⟨hidle, v, rest, hhead⟩ := hcl
    have hget : s.finishedResults.q.get p = some v := DList.get_eq.2 (by rw [hhead]; exact List.mem_cons_self)
    have hcall : s.finishedResults.call none .dequeue = some (s.finishedResults.goto none (.lock .dequeue)) := by
      rw [CQueue.call, hidle]
    exact hgo _ (by simp only [State.clientStep, hc, hget, Option.bind_some, hcall]; rfl)
  | dequeuing res =>
    rw [hc] at hcl
    refine call_enabled h.records.control hcalls hl (t := none) (fun hp => ?_) ?_
    · rw [hp] at hcl
      exact hcl.elim
    · cases hp : s.finishedResults.pc none with
      | waiting k =>
        rw [hp] at hcl
        cases k <;> exact hcl.elim
      | _ => rfl
  | peeking =>
    rw [hc] at hcl
    cases hp : s.finishedResults.pc none with
    | waiting k =>
      rw [hp] at hcl
      have hreader : (s.finishedResults.pc none).reader = true := by
        rw [hp]
        cases k <;> first | rfl | exact hcl.elim
      exact peek_enabled hcalls hl hcons hjobs h.records.control hreader (hmore hc)
    | idle =>
      rw [hp] at hcl
      exact hcl.elim
    | _ =>
      exact call_enabled h.records.control hcalls hl (t := none) (by simp [hp]) (by rw [hp]; rfl)

end Enabled

/-! ## Calls return -/

/-- a state reached by valid calls, none of a word that has no tree, and fewer than 2^31 of `StartQuery`; in
`GetNextAvailRes`, with a document that was not returned yet -/
structure Live {n : ℕ} [NeZero n] (s : State n) : Prop where
  reached : ∃ as, run State.step State.init as = some s ∧ Valid as ∧ (∀ a ∈ as, a.Shorter) ∧
    (startIds as).length < 2 ^ 31
  more : s.client = .peeking → s.results.length < s.submitted.length

section Returns

variable {n : ℕ} [NeZero n] {s s' : State n} {a : Act n} {as : List (Act n)}

/-- inside a call the client makes no other -/
theorem Move.not_call (hm : Move s a s') (hbusy : s.client ≠ .idle) :
    a.startId = none ∧ a.endId = none ∧ a.document = none ∧ a.Valid ∧ a.Shorter := by
  cases hm
  case badQuery hcl _ | startQuery hcl _ | endQuery hcl | matchDocument hcl | getNextAvailRes hcl _ =>
    exact absurd hcl hbusy
  all_goals exact ⟨rfl, rfl, rfl, trivial, trivial⟩

/-- the client stays in `peek` while nothing is returned and no document submitted -/
theorem Move.peeking (hm : Move s a s') (hbusy : s.client ≠ .idle) (hpeek : s'.client = .peeking) :
    s.client = .peeking ∧ s'.replies = s.replies ∧ s'.submitted = s.submitted := by
  cases hm
  case badQuery hcl _ | startQuery hcl _ | endQuery hcl | matchDocument hcl | getNextAvailRes hcl _ =>
    exact absurd hcl hbusy
  case submitJob | count | register | endUnknown | ended | cleared | append | parse | submitDoc | peekedNone | peeked |
      read | dequeued =>
    cases hpeek
  all_goals exact ⟨hpeek, rfl, rfl⟩

theorem Live.step (h : Live s) (hbusy : s.client ≠ .idle) (hs : s.step a = some s') : Live s' := by
  obtain ⟨as, hr, hv, hshort, hfew⟩ := h.reached
  have hm := step_move hs
  obtain ⟨hstart, hend, hdoc, hvalid, hword⟩ := hm.not_call hbusy
  refine ⟨⟨as ++ [a], by rw [run_snoc, hr, Option.bind_some, hs], ⟨⟨?_, ?_⟩, fun b hb => ?_, ?_⟩, fun b hb => ?_, ?_⟩,
    fun hpeek => ?_⟩
  · rw [startIds_snoc, hstart, Option.toList_none, List.append_nil]
    exact hv.starts
  · rw [endIds_snoc, hend, Option.toList_none, List.append_nil]
    exact hv.ends
  · rcases List.mem_append.1 hb with hb | hb
    · exact hv.acts b hb
    · exact List.mem_singleton.1 hb ▸ hvalid
  · rw [documents_none as hdoc]
    exact hv.docs
  · rcases List.mem_append.1 hb with hb | hb
    · exact hshort b hb
    · exact List.mem_singleton.1 hb ▸ hword
  · rwa [startIds_snoc, hstart, Option.toList_none, List.append_nil]
  · obtain ⟨hold, hreplies, hsub⟩ := hm.peeking hbusy hpeek
    have hmore := h.more hold
    rw [State.results, taken_nil (by rw [hold]; exact nofun)] at hmore
    rw [State.results, taken_nil (by rw [hpeek]; exact nofun), hreplies, hsub]
    exact hmore

theorem Live.enabled (h : Live s) (hbusy : s.client ≠ .idle) : s.Enabled := by
  obtain ⟨as, hr, hv, hshort, -⟩ := h.reached
  have hway := way hr
  exact Core.enabled (known hr hv) (lively hr hv.toDistinctCalls) hway.calls hway.conserved hshort
    (fun _ _ hd => window hr hv hd) hbusy h.more

theorem Live.countersFit (h : Live s) (a : Act n) : s.countersFit a = true := by
  obtain ⟨as, hr, hv, -, hfew⟩ := h.reached
  exact (countersFit_iff hr hv.toDistinctCalls).2 (countable_of_few hr hv.toDistinctCalls hfew a)

/-- a process that has thrown nothing, in a state of `Live` -/
structure Process.Live (p : Process n) : Prop where
  engine : Core.Live p.engine
  free : p.docsLocked = false

variable {p p' : Process n}

/-- a step goes on with the call, or ends it -/
theorem Process.Live.step (h : p.Live) (hbusy : p.engine.client ≠ .idle) (hs : p.step a = some p') :
    (∃ t, p.engine.step a = some t ∧ p'.engine = t ∧ p'.Live) ∨ p'.engine.client = .idle := by
  rcases Process.step_cases hs with ⟨-, t, ht, rfl⟩ | ⟨docId, docStr, -, -, rfl, -⟩
  · exact .inl ⟨t, ht, rfl, h.engine.step hbusy ht, h.free⟩
  · exact .inr rfl

end Returns

end K23Search.Core
