/-
What a step of the engine does to a running `match_doc` and to the results of its document.

Result:
- `Move.run_cases`: the run of a worker in the next state is one that begins, or comes from the run before by one
  `RunMove`.
-/
import K23Search.Core.Snapshot

namespace K23Search.Core

open K23Search.Lib

variable {n : ℕ}

/-- the steps of a running `match_doc`, with the results of its document -/
inductive RunMove (s : State n) : DocRun → ResultTable → DocRun → ResultTable → Prop where
  | same (r : DocRun) (rt : ResultTable) : RunMove s r rt r rt
  | submit {r rt job rest} (hpc : r.pc = .submitting (job :: rest)) :
      RunMove s r rt { r with pc := .submitting rest, sub := r.sub.submit job } rt
  | wait {r rt} (hpc : r.pc = .submitting []) : RunMove s r rt { r with pc := .waiting } rt
  | store {r rt} (hpc : r.pc = .waiting) (hd : r.sub.Done) : RunMove s r rt { r with pc := .moving } rt
  | move {r rt} (hpc : r.pc = .moving) : RunMove s r rt { r with pc := .enqueuing } rt
  | moved {r rt} (hpc : r.pc = .enqueuing) : RunMove s r rt { r with pc := .unlinking } rt
  | startTask {r rt j sub} (hs : r.sub.start j = some sub) :
      RunMove s r rt { r with sub := sub, tasks := Function.update r.tasks j .called } rt
  | readKeys {r rt j ix w t} (ht : r.tasks j = .called) (hj : (r.sub.queue j).head? = some (.matchQueries ix w t)) :
      RunMove s r rt { r with tasks := Function.update r.tasks j (.searching (searchKeys s.thresholdCounters t)) } rt
  | readExact {r rt j w} (ht : r.tasks j = .called) (hj : (r.sub.queue j).head? = some (.matchExact w)) :
      RunMove s r rt { r with tasks := Function.update r.tasks j (.adding (s.index.searchExact s.heap w) []) } rt
  | search {r rt j ix w t key keys calls} (ht : r.tasks j = .searching (key :: keys))
      (hj : (r.sub.queue j).head? = some (.matchQueries ix w t)) (hs : s.index.search s.heap ix key w = some calls) :
      RunMove s r rt { r with tasks := Function.update r.tasks j (.adding calls keys) } rt
  | searched {r rt j} (ht : r.tasks j = .searching []) :
      RunMove s r rt { r with tasks := Function.update r.tasks j .done } rt
  | add {r rt j p u calls keys rt'} (ht : r.tasks j = .adding ((p, u) :: calls) keys)
      (ha : addQueryToDocResults s.heap rt p u = some rt') :
      RunMove s r rt { r with tasks := Function.update r.tasks j (.adding calls keys) } rt'
  | added {r rt j keys} (ht : r.tasks j = .adding [] keys) :
      RunMove s r rt { r with tasks := Function.update r.tasks j (.searching keys) } rt
  | finishTask {r rt j sub} (ht : r.tasks j = .done) (hs : r.sub.finish j = some sub) :
      RunMove s r rt { r with sub := sub, tasks := Function.update r.tasks j .idle } rt

/-- the `match_doc` of `node` begins on worker `k` -/
structure Begins (s : State n) (k : Fin n) (node : ℕ) (res : DocumentResults) (r : DocRun) : Prop where
  called : s.work k = .called
  head : (s.jobs.queue k).head? = some (.matchDoc node)
  record : s.docs.get node = some res
  run_eq : r = ⟨.submitting (matchJobs res.words.toList), Jobs.init, fun _ => .idle⟩

/-- the run of worker `k` was there before, with this record -/
def Continues (s : State n) (k : Fin n) (node : ℕ) (r' : DocRun) (res' : DocumentResults) : Prop :=
  ∃ r res, s.docRun k = some (node, r) ∧ s.docs.get node = some res ∧ res.docId = res'.docId ∧
    RunMove s r res.results r' res'.results

variable [NeZero n] {s s' : State n} {a : Act n} {as : List (Act n)} {k : Fin n} {node : ℕ} {r' : DocRun}
  {res' : DocumentResults}

omit [NeZero n] in
/-- worker `i` goes on in its run, and only the record of its document changes -/
theorem continues_run (h : Records as s) {i : Fin n} {node₀ : ℕ} {r₀ r₁ : DocRun}
    (hr : s.docRun i = some (node₀, r₀)) (docs : DList DocumentResults)
    (hother : ∀ node, node ≠ node₀ → docs.get node = s.docs.get node)
    (hown : ∀ res', docs.get node₀ = some res' →
      ∃ res, s.docs.get node₀ = some res ∧ res.docId = res'.docId ∧ RunMove s r₀ res.results r₁ res'.results)
    (hr' : ({ s with docs := docs }.setWork i (.matching r₁)).docRun k = some (node, r'))
    (hres' : docs.get node = some res') : Continues s k node r' res' := by
  rcases docRun_setWork hr' with ⟨hk, hold⟩ | ⟨rfl, hw, hhead⟩
  · have hne := h.nodes.ne hk (mem_jobsBefore_run hold) (mem_jobsBefore_run hr)
    exact ⟨r', res', hold, (hother node hne).symm.trans hres', rfl, .same _ _⟩
  · cases hw
    cases (docRun_some.1 hr).2.symm.trans hhead
    obtain ⟨res, hres, hid, hmove⟩ := hown res' hres'
    exact ⟨r₀, res, hr, hres, hid, hmove⟩

omit [NeZero n] in
/-- no record changes -/
theorem continues_same (h : Records as s) {i : Fin n} {node₀ : ℕ} {r₀ r₁ : DocRun}
    (hr : s.docRun i = some (node₀, r₀)) (hmove : ∀ rt, RunMove s r₀ rt r₁ rt)
    (hr' : (s.setWork i (.matching r₁)).docRun k = some (node, r')) (hres' : s.docs.get node = some res') :
    Continues s k node r' res' :=
  continues_run h hr s.docs (fun _ _ => rfl) (fun res hres => ⟨res, hres, rfl, hmove _⟩) hr' hres'

/-- **Runs.** A running `match_doc` begins at a step, or goes on from the state before. -/
theorem Move.run_cases (hm : Move s a s') (h : Records as s) (hr' : s'.docRun k = some (node, r'))
    (hres' : s'.docs.get node = some res') : Begins s k node res' r' ∨ Continues s k node r' res' := by
  have hc := h.control
  have hsame : ∀ {t : State n} {k node r'}, t.docRun k = some (node, r') → t.jobs = s.jobs → t.work = s.work →
      ∀ {res'}, s.docs.get node = some res' → Begins s k node res' r' ∨ Continues s k node r' res' := by
    intro t k node r' hr hjobs hwork res' hres
    refine .inr ⟨r', res', docRun_some.2 ?_, hres, rfl, .same _ _⟩
    rw [← hjobs, ← hwork]
    exact docRun_some.1 hr
  cases hm
  case submitJob j rest hcl =>
    obtain ⟨hw, hhead⟩ := docRun_some.1 hr'
    exact .inr ⟨r', res', docRun_some.2 ⟨hw, (submit_running hc _ hw).symm.trans hhead⟩, hres', rfl, .same _ _⟩
  case submitDoc =>
    obtain ⟨hw, hhead⟩ := docRun_some.1 hr'
    exact .inr ⟨r', res', docRun_some.2 ⟨hw, (submit_running hc _ hw).symm.trans hhead⟩, hres', rfl, .same _ _⟩
  case append hcl =>
    obtain ⟨res₀, hres₀⟩ := h.nodes.live (mem_jobsBefore_run hr')
    have hget := (DList.append_cases hres').resolve_left fun h => Nat.ne_of_lt (DList.lt_fresh_of_get hres₀) h.1
    exact hsame hr' (by rfl) (by rfl) hget.2
  case parse node₀ _ _ hcl _ _ =>
    have hne := h.nodes.client_ne (mem_jobsBefore_run hr') (by rw [hcl]; exact List.mem_cons_self)
    have hget := (DList.modify_cases hres').resolve_left fun h => hne h.1.symm
    exact hsame hr' (by rfl) (by rfl) hget.2
  case start i jobs hj =>
    obtain ⟨-, -, rfl⟩ := Jobs.start_some hj
    rcases docRun_setWork hr' with ⟨-, hold⟩ | ⟨-, hw, -⟩
    · exact hsame (t := s) hold rfl rfl hres'
    · cases hw
  case finish i jobs hw hj =>
    obtain ⟨-, rfl⟩ := Jobs.finish_some hj
    rcases docRun_setWork hr' with ⟨hk, hold⟩ | ⟨-, hw, -⟩
    · obtain ⟨hw', hhead⟩ := docRun_some.1 hold
      exact hsame (t := s) (docRun_some.2 ⟨hw', by simpa [hk] using hhead⟩) rfl rfl hres'
    · cases hw
  case insertTree | insertTable =>
    rcases docRun_setWork hr' with ⟨-, hold⟩ | ⟨-, hw, -⟩
    · exact hsame hold (by rfl) (by rfl) hres'
    · cases hw
  case unlink i c node₀ r₀ docs hr hpc hdocs =>
    rcases docRun_setWork hr' with ⟨hk, hold⟩ | ⟨-, hw, -⟩
    · exact hsame hold (by rfl) (by rfl) (DList.get_of_remove hdocs hres')
    · cases hw
  case beginDoc i c node₀ res₀ hw hj hres₀ =>
    rcases docRun_setWork hr' with ⟨-, hold⟩ | ⟨rfl, hnew, hhead⟩
    · exact hsame (t := s) hold rfl rfl hres'
    · cases hnew
      cases hj.symm.trans hhead
      cases hres₀.symm.trans hres'
      exact .inl ⟨hw, hj, hres₀, rfl⟩
  case submitMatch hr hpc => exact .inr (continues_same h hr (fun _ => .submit hpc) hr' hres')
  case waitMatch hr hpc => exact .inr (continues_same h hr (fun _ => .wait hpc) hr' hres')
  case store i c node₀ r₀ res₀ hr hpc hdone hres₀ ho =>
    refine .inr (continues_run h hr _ (fun node hne => (DList.get_modify ..).trans (if_neg hne)) (fun res hres => ?_) hr'
      hres')
    obtain ⟨-, res₁, hres₁, rfl⟩ := (DList.modify_cases hres).resolve_right fun h => h.1 rfl
    exact ⟨res₁, hres₁, rfl, .store hpc hdone⟩
  case move hr hpc _ _ => exact .inr (continues_same h hr (fun _ => .move hpc) hr' hres')
  case moved hr hpc _ => exact .inr (continues_same h hr (fun _ => .moved hpc) hr' hres')
  case startTask hr hsub => exact .inr (continues_same h hr (fun _ => .startTask hsub) hr' hres')
  case readKeys hr ht hj => exact .inr (continues_same h hr (fun _ => .readKeys ht hj) hr' hres')
  case readExact hr ht hj => exact .inr (continues_same h hr (fun _ => .readExact ht hj) hr' hres')
  case search hr ht hj hsearch => exact .inr (continues_same h hr (fun _ => .search ht hj hsearch) hr' hres')
  case searched hr ht => exact .inr (continues_same h hr (fun _ => .searched ht) hr' hres')
  case added hr ht => exact .inr (continues_same h hr (fun _ => .added ht) hr' hres')
  case add i j node₀ r₀ p u calls keys res₀ results hr ht hres₀ ha =>
    refine .inr (continues_run h hr _ (fun node hne => (DList.get_modify ..).trans (if_neg hne)) (fun res hres => ?_) hr'
      hres')
    obtain ⟨-, res₁, hres₁, rfl⟩ := (DList.modify_cases hres).resolve_right fun h => h.1 rfl
    cases hres₀.symm.trans hres₁
    exact ⟨res₀, hres₀, rfl, .add ht ha⟩
  case finishTask hr ht hsub => exact .inr (continues_same h hr (fun _ => .finishTask ht hsub) hr' hres')
  all_goals exact hsame hr' (by rfl) (by rfl) hres'

end K23Search.Core
