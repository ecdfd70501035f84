/-
Where the workers are: a worker that is not idle is in the job at the head of its queue, and so are the workers of a
running `match_doc`. Every step of the engine keeps this.

Results:
- `control`: it holds in every reachable state;
- `Move.starting`: the jobs that `StartQuery` has still to submit are jobs of its query;
- `Move.grows`: of the queries in the heap, a step changes `active` at most.
-/
import K23Search.Core.Engine

namespace K23Search.Core

open K23Search.Lib K23Search.Text

/-! ## The invariant -/

/-- a worker of `match_doc`'s scheduler -/
def TaskOk (running : Bool) (queue : List MatchJob) : Task → Prop
  | .idle => running = false
  | _ => running = true ∧ queue ≠ []

def DocRun.Ok (r : DocRun) : Prop := ∀ j, TaskOk (r.sub.running j) (r.sub.queue j) (r.tasks j)

/-- a worker of `job_scheduler()` -/
def WorkOk (running : Bool) (queue : List Job) : Work → Prop
  | .idle => running = false
  | .matching r => running = true ∧ r.Ok ∧ ∃ node rest, queue = .matchDoc node :: rest
  | _ => running = true ∧ queue ≠ []

def Control {n : ℕ} (jobs : Jobs n Job) (work : Fin n → Work) : Prop :=
  ∀ i, WorkOk (jobs.running i) (jobs.queue i) (work i)

/-! ## Tasks -/

theorem docRun_ok_init {rest : List MatchJob} : DocRun.Ok ⟨.submitting rest, Jobs.init, fun _ => .idle⟩ := fun _ => rfl

section Tasks

variable {r : DocRun}

theorem DocRun.Ok.submit (h : r.Ok) (pc : DocPc) (job : MatchJob) :
    DocRun.Ok { r with pc := pc, sub := r.sub.submit job } := by
  intro j
  have hj := h j
  change TaskOk (r.sub.running j) ((r.sub.submit job).queue j) (r.tasks j)
  rcases Jobs.submit_queue r.sub job j with ⟨-, heq⟩ | ⟨-, heq⟩
  · rwa [heq]
  · rw [heq]
    cases ht : r.tasks j with
    | idle => rwa [ht] at hj
    | _ =>
      rw [ht] at hj
      exact ⟨hj.1, by simp⟩

theorem DocRun.Ok.busy (h : r.Ok) {j : Fin 3} (hj : r.tasks j ≠ .idle) :
    r.sub.running j = true ∧ r.sub.queue j ≠ [] := by
  have hok := h j
  cases ht : r.tasks j with
  | idle => exact absurd ht hj
  | _ =>
    rw [ht] at hok
    exact hok

/-- a worker goes on with its job -/
theorem DocRun.Ok.task (h : r.Ok) {j : Fin 3} {t : Task} (hold : r.tasks j ≠ .idle) (hnew : t ≠ .idle) :
    DocRun.Ok { r with tasks := Function.update r.tasks j t } := by
  intro k
  have hk := h k
  by_cases hkj : k = j
  · subst hkj
    simp only [Function.update_self]
    have hrun := h.busy hold
    cases t with
    | idle => exact absurd rfl hnew
    | _ => exact hrun
  · simp only [Function.update_of_ne hkj]
    exact hk

theorem DocRun.Ok.start (h : r.Ok) {j : Fin 3} {sub : Jobs 3 MatchJob} (hs : r.sub.start j = some sub) :
    DocRun.Ok { r with sub := sub, tasks := Function.update r.tasks j .called } := by
  obtain ⟨-, hne, rfl⟩ := Jobs.start_some hs
  intro k
  have hk := h k
  by_cases hkj : k = j
  · subst hkj
    simp only [Function.update_self]
    exact ⟨rfl, hne⟩
  · simp only [Function.update_of_ne hkj]
    exact hk

theorem DocRun.Ok.finish (h : r.Ok) {j : Fin 3} {sub : Jobs 3 MatchJob} (hs : r.sub.finish j = some sub) :
    DocRun.Ok { r with sub := sub, tasks := Function.update r.tasks j .idle } := by
  obtain ⟨-, rfl⟩ := Jobs.finish_some hs
  intro k
  have hk := h k
  by_cases hkj : k = j
  · subst hkj
    simp only [Function.update_self]
    rfl
  · simp only [Function.update_of_ne hkj]
    exact hk

end Tasks

/-! ## Steps -/

section Moves

variable {n : ℕ} {s s' : State n} {a : Act n}

theorem docRun_some {i : Fin n} {node : ℕ} {r : DocRun} :
    s.docRun i = some (node, r) ↔ s.work i = .matching r ∧ (s.jobs.queue i).head? = some (.matchDoc node) := by
  unfold State.docRun
  split
  · next r' node' hw hq => simp [hw, hq, and_comm]
  · next hne =>
    simp only [reduceCtorEq, false_iff]
    exact fun h => hne _ _ h.1 h.2

/-- worker `i` goes on with its job -/
theorem Control.setWork {jobs : Jobs n Job} {work : Fin n → Work} (h : Control jobs work) {i : Fin n} {w : Work}
    (hw : WorkOk (jobs.running i) (jobs.queue i) w) : Control jobs (Function.update work i w) := by
  intro k
  by_cases hk : k = i
  · subst hk
    rwa [Function.update_self]
  · rw [Function.update_of_ne hk]
    exact h k

theorem Control.busy {jobs : Jobs n Job} {work : Fin n → Work} (h : Control jobs work) {i : Fin n}
    (hw : work i ≠ .idle) : jobs.running i = true ∧ jobs.queue i ≠ [] := by
  have hi := h i
  cases hwi : work i with
  | idle => exact absurd hwi hw
  | matching r =>
    rw [hwi] at hi
    obtain ⟨hrun, -, node, rest, hq⟩ := hi
    exact ⟨hrun, by rw [hq]; exact List.cons_ne_nil _ _⟩
  | called | done =>
    rw [hwi] at hi
    exact hi

theorem Control.idle_of_start {jobs jobs' : Jobs n Job} {work : Fin n → Work} (h : Control jobs work) {i : Fin n}
    (hs : jobs.start i = some jobs') : work i = .idle := by
  by_contra hw
  have hrun := (h.busy hw).1
  rw [(Jobs.start_some hs).1] at hrun
  cases hrun

theorem Control.docRun_ok (h : Control s.jobs s.work) {i : Fin n} {node : ℕ} {r : DocRun}
    (hr : s.docRun i = some (node, r)) : r.Ok := by
  have hi := h i
  rw [(docRun_some.1 hr).1] at hi
  exact hi.2.1

/-- a running `match_doc` goes on -/
theorem Control.setRun {jobs : Jobs n Job} {work : Fin n → Work} (h : Control jobs work) {i : Fin n} {r r' : DocRun}
    (hr : work i = .matching r) (hok : r.Ok → r'.Ok) : Control jobs (Function.update work i (.matching r')) := by
  have hi := h i
  rw [hr] at hi
  exact h.setWork ⟨hi.1, hok hi.2.1, hi.2.2⟩

theorem Control.start {jobs jobs' : Jobs n Job} {work : Fin n → Work} (h : Control jobs work) {i : Fin n}
    (hs : jobs.start i = some jobs') : Control jobs' (Function.update work i .called) := by
  obtain ⟨-, hne, rfl⟩ := Jobs.start_some hs
  intro k
  have hk := h k
  by_cases hki : k = i
  · subst hki
    simp only [Function.update_self]
    exact ⟨rfl, hne⟩
  · simp only [Function.update_of_ne hki]
    exact hk

theorem Control.finish {jobs jobs' : Jobs n Job} {work : Fin n → Work} (h : Control jobs work) {i : Fin n}
    (hs : jobs.finish i = some jobs') : Control jobs' (Function.update work i .idle) := by
  obtain ⟨-, rfl⟩ := Jobs.finish_some hs
  intro k
  have hk := h k
  by_cases hki : k = i
  · subst hki
    simp only [Function.update_self]
    rfl
  · simp only [Function.update_of_ne hki]
    exact hk

variable [NeZero n]

theorem Control.submit {jobs : Jobs n Job} {work : Fin n → Work} (h : Control jobs work) (j : Job) :
    Control (jobs.submit j) work := by
  intro k
  have hk := h k
  change WorkOk (jobs.running k) ((jobs.submit j).queue k) (work k)
  rcases Jobs.submit_queue jobs j k with ⟨-, heq⟩ | ⟨-, heq⟩
  · rwa [heq]
  · rw [heq]
    cases hw : work k with
    | idle => rwa [hw] at hk
    | matching r =>
      rw [hw] at hk
      obtain ⟨hrun, hok, node, rest, hq⟩ := hk
      exact ⟨hrun, hok, node, rest ++ [j], by rw [hq, List.cons_append]⟩
    | called | done =>
      rw [hw] at hk
      exact ⟨hk.1, by simp⟩

theorem Move.control (hm : Move s a s') (h : Control s.jobs s.work) : Control s'.jobs s'.work := by
  cases hm
  case submitJob => exact h.submit _
  case submitDoc => exact h.submit _
  case start hj => exact h.start hj
  case finish hj => exact h.finish hj
  case insertTree hw _ _ => exact h.setWork (h.busy (by rw [hw]; exact nofun))
  case insertTable hw _ => exact h.setWork (h.busy (by rw [hw]; exact nofun))
  case beginDoc hw hj _ =>
    obtain ⟨rest, hrest⟩ := List.head?_eq_some_iff.1 hj
    exact h.setWork ⟨(h.busy (by rw [hw]; exact nofun)).1, docRun_ok_init, _, rest, hrest⟩
  case unlink hr _ _ => exact h.setWork (h.busy (by rw [(docRun_some.1 hr).1]; exact nofun))
  case submitMatch hr _ => exact h.setRun (docRun_some.1 hr).1 fun hok => hok.submit _ _
  case waitMatch hr _ => exact h.setRun (docRun_some.1 hr).1 id
  case store hr _ _ _ _ => exact h.setRun (docRun_some.1 hr).1 id
  case move hr _ _ _ => exact h.setRun (docRun_some.1 hr).1 id
  case moved hr _ _ => exact h.setRun (docRun_some.1 hr).1 id
  case startTask hr hs => exact h.setRun (docRun_some.1 hr).1 fun hok => hok.start hs
  case finishTask hr _ hs => exact h.setRun (docRun_some.1 hr).1 fun hok => hok.finish hs
  case readKeys hr ht _ => exact h.setRun (docRun_some.1 hr).1 fun hok => hok.task (by rw [ht]; exact nofun) nofun
  case readExact hr ht _ => exact h.setRun (docRun_some.1 hr).1 fun hok => hok.task (by rw [ht]; exact nofun) nofun
  case search hr ht _ _ => exact h.setRun (docRun_some.1 hr).1 fun hok => hok.task (by rw [ht]; exact nofun) nofun
  case searched hr ht => exact h.setRun (docRun_some.1 hr).1 fun hok => hok.task (by rw [ht]; exact nofun) nofun
  case add hr ht _ _ => exact h.setRun (docRun_some.1 hr).1 fun hok => hok.task (by rw [ht]; exact nofun) nofun
  case added hr ht => exact h.setRun (docRun_some.1 hr).1 fun hok => hok.task (by rw [ht]; exact nofun) nofun
  all_goals exact h

theorem control_init : Control (State.init : State n).jobs (State.init : State n).work := fun _ => rfl

/-- **Where the workers are**, in every reachable state -/
theorem control {as : List (Act n)} (hr : run State.step State.init as = some s) : Control s.jobs s.work :=
  run_inv (I := fun s => Control s.jobs s.work) control_init (fun _ _ _ h hs => (step_move hs).control h) hr

/-- the jobs that `StartQuery` has still to submit -/
def Starting (s : State n) : Prop :=
  ∀ p rest, s.client = .starting p rest → p + 1 = s.heap.length ∧ ∃ query before, s.heap[p]? = some query ∧
    insertJobs query.matchType p query.uniqueWords.toList = before ++ rest

theorem Move.starting (hm : Move s a s') (h : Starting s) : Starting s' := by
  cases hm
  case startQuery =>
    intro p rest hp
    cases hp
    exact ⟨by simp, _, [], List.getElem?_concat_length, rfl⟩
  case submitJob hc =>
    intro p rest hp
    cases hp
    obtain ⟨hlen, query, before, hq, hjobs⟩ := h _ _ hc
    exact ⟨hlen, query, before ++ [_], hq, by rw [hjobs, List.append_assoc, List.singleton_append]⟩
  case matchDocument =>
    intro p rest hp
    change (if s.queryHasStarted = true then _ else _) = ClientPc.starting p rest at hp
    split at hp <;> cases hp
  all_goals first
    | (intro p rest hp; cases hp)
    | exact h

theorem starting_init : Starting (State.init : State n) := by
  intro p rest hp
  cases hp

theorem Move.grows (hm : Move s a s') : Grows s.heap s'.heap := by
  cases hm
  case startQuery =>
    intro p q hq
    refine ⟨q.active, ?_⟩
    change (s.heap ++ _)[p]? = _
    rw [List.getElem?_append_left (List.getElem?_eq_some_iff.1 hq).1, hq]
  case ended =>
    intro p q hq
    change ∃ a, (s.heap.modify _ _)[p]? = _
    rw [List.getElem?_modify, hq]
    split
    · exact ⟨false, rfl⟩
    · exact ⟨q.active, rfl⟩
  all_goals exact Grows.refl _

end Moves

end K23Search.Core
