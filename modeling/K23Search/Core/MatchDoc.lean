/-
The answers of `match_doc`.

Results:
- `snapshot`: in a run in which no query is started that matches the document while its answer is not stored, the answer
  has the queries that were active when `MatchDocument` was called and match the document;
- `quiescent`: after any calls, a document with words of the lengths for which there are trees, and no call of
  `StartQuery` or `EndQuery` after its `MatchDocument`: the answer has the active queries that match it, and a
  `match_doc` that runs can always store it.
Counterexample:
- `late_query_reported`: a query that is started after `MatchDocument` has returned.
-/
import K23Search.Core.Snapshot
import Mathlib.Algebra.Order.BigOperators.Group.Finset
import Mathlib.Data.Prod.Lex
import Mathlib.Order.WellFounded

namespace K23Search.Core

open K23Search.Lib K23Search.Text

/-! ## What is left of a run -/

/-- where a worker is in its job -/
def Task.phase : Task → ℕ
  | .idle => 3
  | .called => 2
  | .searching _ => 1
  | .adding _ _ => 1
  | .done => 0

/-- the steps of the loop over the payloads -/
def Task.turns : Task → ℕ
  | .adding calls _ => calls.length + 1
  | _ => 0

def DocPc.jobs : DocPc → ℕ
  | .submitting rest => 8 * rest.length + 1
  | _ => 0

/-- the jobs with their phases, the thresholds, the calls: every step makes it smaller -/
def DocRun.load (r : DocRun) : ℕ ×ₗ ℕ ×ₗ ℕ :=
  toLex (r.pc.jobs + ∑ j, (4 * (r.sub.queue j).length + (r.tasks j).phase),
    toLex (∑ j, (r.tasks j).keys.length, ∑ j, (r.tasks j).turns))

section Load

variable {r : DocRun} {j : Fin 3} {t : Task}

theorem lex_lt {a a' b b' c c' : ℕ} (h : a' < a ∨ a' = a ∧ (b' < b ∨ b' = b ∧ c' < c)) :
    toLex (a', toLex (b', c')) < toLex (a, toLex (b, c)) :=
  Prod.Lex.toLex_lt_toLex.2 (h.imp_right fun h => ⟨h.1, Prod.Lex.toLex_lt_toLex.2 h.2⟩)

theorem sum_update_lt {f g : Fin 3 → ℕ} (hne : ∀ k, k ≠ j → g k = f k) (hlt : g j < f j) : ∑ k, g k < ∑ k, f k := by
  refine Finset.sum_lt_sum (fun k _ => ?_) ⟨j, Finset.mem_univ j, hlt⟩
  by_cases hk : k = j
  · exact hk ▸ le_of_lt hlt
  · exact le_of_eq (hne k hk)

/-- a step to a later phase -/
theorem load_phase (h : t.phase < (r.tasks j).phase) :
    DocRun.load { r with tasks := Function.update r.tasks j t } < r.load := by
  refine lex_lt (.inl (Nat.add_lt_add_left (sum_update_lt (j := j) (fun k hk => ?_) ?_) _))
  · simp [hk]
  · simpa using h

/-- a search -/
theorem load_keys (h : t.phase = (r.tasks j).phase) (hkeys : t.keys.length < (r.tasks j).keys.length) :
    DocRun.load { r with tasks := Function.update r.tasks j t } < r.load := by
  refine lex_lt (.inr ⟨congrArg _ (Finset.sum_congr rfl fun k _ => ?_), .inl (sum_update_lt (j := j) (fun k hk => ?_) ?_)⟩)
  · by_cases hk : k = j
    · subst hk
      simp [h]
    · simp [hk]
  · simp [hk]
  · simpa using hkeys

/-- a step of the loop over the payloads -/
theorem load_turns (h : t.phase = (r.tasks j).phase) (hkeys : t.keys.length = (r.tasks j).keys.length)
    (hturns : t.turns < (r.tasks j).turns) : DocRun.load { r with tasks := Function.update r.tasks j t } < r.load := by
  have hsame : ∀ f : Task → ℕ, f t = f (r.tasks j) → ∀ k, f (Function.update r.tasks j t k) = f (r.tasks k) := by
    intro f hf k
    by_cases hk : k = j
    · subst hk
      simp [hf]
    · simp [hk]
  refine lex_lt (.inr ⟨congrArg _ (Finset.sum_congr rfl fun k _ => ?_),
    .inr ⟨Finset.sum_congr rfl fun k _ => ?_, sum_update_lt (j := j) (fun k hk => ?_) ?_⟩⟩)
  · exact congrArg _ (hsame Task.phase h k)
  · exact hsame (fun t => t.keys.length) hkeys k
  · simp [hk]
  · simpa using hturns

/-- a job is submitted -/
theorem load_submit {job : MatchJob} {rest : List MatchJob} (hpc : r.pc = .submitting (job :: rest)) :
    DocRun.load { r with pc := .submitting rest, sub := r.sub.submit job } < r.load := by
  have hsum : ∑ j, (4 * ((r.sub.submit job).queue j).length + (r.tasks j).phase) =
      ∑ j, (4 * (r.sub.queue j).length + (r.tasks j).phase) + 4 := by
    rw [← Finset.add_sum_erase _ _ (Finset.mem_univ r.sub.current),
      ← Finset.add_sum_erase _ (fun j => 4 * (r.sub.queue j).length + _) (Finset.mem_univ r.sub.current)]
    have hcur := ((Jobs.submit_queue r.sub job r.sub.current).resolve_left fun h => h.1 rfl).2
    have hrest : ∑ j ∈ Finset.univ.erase r.sub.current, (4 * ((r.sub.submit job).queue j).length + (r.tasks j).phase) =
        ∑ j ∈ Finset.univ.erase r.sub.current, (4 * (r.sub.queue j).length + (r.tasks j).phase) := by
      refine Finset.sum_congr rfl fun k hk => ?_
      rw [((Jobs.submit_queue r.sub job k).resolve_right fun h => Finset.ne_of_mem_erase hk h.1).2]
    rw [hrest, hcur, List.length_append, List.length_singleton]
    omega
  refine lex_lt (.inl ?_)
  have hjobs : r.pc.jobs = 8 * (rest.length + 1) + 1 := by rw [hpc]; rfl
  have hjobs' : (DocPc.submitting rest).jobs = 8 * rest.length + 1 := rfl
  dsimp only
  rw [hsum, hjobs, hjobs']
  omega

theorem load_wait (hpc : r.pc = .submitting []) : DocRun.load { r with pc := .waiting } < r.load := by
  have hjobs : r.pc.jobs = 1 := by rw [hpc]; rfl
  refine lex_lt (.inl (Nat.add_lt_add_right ?_ _))
  rw [hjobs]
  exact Nat.one_pos

theorem load_start (ht : r.tasks j = .idle) {sub : Jobs 3 MatchJob} (hs : r.sub.start j = some sub) :
    DocRun.load { r with sub := sub, tasks := Function.update r.tasks j .called } < r.load := by
  obtain ⟨-, -, rfl⟩ := Jobs.start_some hs
  exact load_phase (by rw [ht]; decide)

/-- a job is removed from its queue -/
theorem load_finish (ht : r.tasks j = .done) (hne : r.sub.queue j ≠ []) {sub : Jobs 3 MatchJob}
    (hs : r.sub.finish j = some sub) :
    DocRun.load { r with sub := sub, tasks := Function.update r.tasks j .idle } < r.load := by
  obtain ⟨-, rfl⟩ := Jobs.finish_some hs
  refine lex_lt (.inl (Nat.add_lt_add_left (sum_update_lt (j := j) (fun k hk => ?_) ?_) _))
  · simp [hk]
  · have hpos := List.length_pos_of_ne_nil hne
    simp only [Function.update_self, List.length_tail, ht, Task.phase]
    omega

end Load

/-! ## A run ends -/

section Progress

variable {n : ℕ} {s : State n} {as : List (Act n)} {d : ℕ} {doc : List Word} {i : Fin n} {j : Fin 3} {node : ℕ}
  {r : DocRun} {res : DocumentResults}

/-- a step of the `match_doc` of worker `i` -/
def Act.OfRun (i : Fin n) : Act n → Prop
  | .work k _ => k = i
  | .startTask k _ => k = i
  | .task k _ => k = i
  | .finishTask k _ => k = i
  | _ => False

/-- `match_doc` is before the point where it stores its answer -/
def DocRun.Open (r : DocRun) : Prop := (∃ rest, r.pc = .submitting rest) ∨ r.pc = .waiting

/-- there is a tree for each word -/
def HasTrees (doc : List Word) : Prop := ∀ w ∈ doc, w.length - minWordLength < hammingBkTrees

variable [NeZero n]

/-- worker `i` is in this run for the document, with its record -/
structure RunsFor (s : State n) (i : Fin n) (node : ℕ) (r : DocRun) (d : ℕ) : Prop where
  run : s.docRun i = some (node, r)
  record : ∃ res, s.docs.get node = some res ∧ res.docId = d

omit [NeZero n] in
theorem runsFor_setWork (hr : s.docRun i = some (node, r)) {docs : DList DocumentResults} {res' : DocumentResults}
    (hres : docs.get node = some res') (hid : res'.docId = d) (r' : DocRun) :
    RunsFor ({ s with docs := docs }.setWork i (.matching r')) i node r' d :=
  ⟨docRun_some.2 ⟨Function.update_self .., (docRun_some.1 hr).2⟩, res', hres, hid⟩

variable (h : Known as s) (hd : (d, doc) ∈ documents as) (hs : Seen d doc as s) (hr : s.docRun i = some (node, r))
  (hres : s.docs.get node = some res) (hid : res.docId = d)

include h hd hs hr hres hid

/-- **No search and no recording is undefined.** A worker in a job of a `match_doc` can take its step. -/
theorem Seen.task_step (hshort : HasTrees doc) (hidle : r.tasks j ≠ .idle) (hdone : r.tasks j ≠ .done) :
    ∃ docs t, s.step (.task i j) = some ({ s with docs := docs }.setTask i r j t) ∧
      (∃ res', docs.get node = some res' ∧ res'.docId = d) ∧
      DocRun.load { r with tasks := Function.update r.tasks j t } < r.load := by
  have hmatching := hs.runs i node r hr res hres hid
  obtain ⟨job, hhead⟩ : ∃ job, (r.sub.queue j).head? = some job := by
    obtain ⟨job, rest, heq⟩ := List.exists_cons_of_ne_nil ((h.records.control.docRun_ok hr).busy hidle).2
    exact ⟨job, by rw [heq]; rfl⟩
  cases ht : r.tasks j with
  | idle => exact absurd ht hidle
  | done => exact absurd ht hdone
  | called =>
    cases job with
    | matchQueries ix w t =>
      refine ⟨s.docs, _, by simp only [State.step, hr, Option.bind_some, State.taskStep, ht, hhead]; rfl, ⟨res, hres, hid⟩,
        load_phase (by rw [ht]; exact Nat.one_lt_two)⟩
    | matchExact w =>
      refine ⟨s.docs, _, by simp only [State.step, hr, Option.bind_some, State.taskStep, ht, hhead]; rfl, ⟨res, hres, hid⟩,
        load_phase (by rw [ht]; exact Nat.one_lt_two)⟩
  | searching keys =>
    cases keys with
    | nil =>
      exact ⟨s.docs, .done, by simp only [State.step, hr, Option.bind_some, State.taskStep, ht, hhead], ⟨res, hres, hid⟩,
        load_phase (by rw [ht]; exact Nat.one_pos)⟩
    | cons key keys =>
      obtain ⟨hkey, ix, w, t, hj⟩ := hmatching.keys j key (by rw [ht]; exact List.mem_cons_self)
      obtain ⟨t', w', hjob, hw, hmin, hmax⟩ := h.head_job hd hr hres hid hj
      obtain ⟨rfl, rfl⟩ : t' = t ∧ w' = w := by cases t' <;> cases hjob <;> exact ⟨rfl, rfl⟩
      obtain ⟨tree, htree, hmem⟩ : ∃ tree, s.index.tree ix = some tree ∧ w' ∈ ix.words := by
        cases t' with
        | exactMatch => cases hjob
        | editDist =>
          cases hjob
          exact ⟨_, rfl, hmax⟩
        | hammingDist =>
          cases hjob
          refine ⟨s.index.hamming (w'.length - minWordLength), ?_, mem_hammingTree hmin hmax⟩
          rw [hammingTree_eq hmin hmax]
          exact if_pos (hshort w' hw)
      obtain ⟨calls, hcalls, -⟩ := Index.search_spec h.index.ok htree hmem hkey s.heap
      exact ⟨s.docs, .adding calls keys,
        by simp only [State.step, hr, Option.bind_some, State.taskStep, ht, hj, hcalls, Option.map_some], ⟨res, hres, hid⟩,
        load_keys (by rw [ht]; rfl) (by rw [ht]; exact Nat.lt_succ_self _)⟩
  | adding calls keys =>
    cases calls with
    | nil =>
      exact ⟨s.docs, .searching keys, by simp only [State.step, hr, Option.bind_some, State.taskStep, ht, hhead],
        ⟨res, hres, hid⟩, load_turns (by rw [ht]; rfl) (by rw [ht]; rfl) (by rw [ht]; exact Nat.one_pos)⟩
    | cons call calls =>
      obtain ⟨p, u⟩ := call
      obtain ⟨rt, hrt, -⟩ := Seen.add_defined h hs hr hres hid ht
      refine ⟨s.docs.modify node fun res => { res with results := rt }, .adding calls keys, ?_, ?_, ?_⟩
      · simp only [State.step, hr, Option.bind_some, State.taskStep, ht, hhead, hres, hrt, Option.map_some]
      · exact ⟨{ res with results := rt }, by rw [DList.get_modify, if_pos rfl, hres, Option.map_some], hid⟩
      · exact load_turns (by rw [ht]; rfl) (by rw [ht]; rfl) (by rw [ht]; exact Nat.lt_succ_self _)

/-- before its answer is stored, a run goes on, and has less left to do, or it can store the answer -/
theorem Seen.advance (hshort : HasTrees doc) (hopen : r.Open) :
    (∃ b t r', b.OfRun i ∧ s.step b = some t ∧ RunsFor t i node r' d ∧ r'.Open ∧ r'.load < r.load) ∨
      ∃ b t ids, b.OfRun i ∧ s.step b = some t ∧ (d, ids) ∈ t.stored := by
  obtain ⟨hw, hhead⟩ := docRun_some.1 hr
  have hok := h.records.control.docRun_ok hr
  let choice : Choice n := ⟨⟨0, bkTreeSkipListLevels_pos⟩, fun _ => false, Core.answers s.heap res.results⟩
  rcases hopen with ⟨rest, hpc⟩ | hpc
  · cases rest with
    | cons job rest =>
      refine .inl ⟨.work i choice, _, { r with pc := .submitting rest, sub := r.sub.submit job }, rfl, ?_,
        runsFor_setWork hr hres hid _, .inl ⟨rest, rfl⟩, load_submit hpc⟩
      simp only [State.step, State.workStep, hw, hhead, State.matchDoc, hpc]
    | nil =>
      refine .inl ⟨.work i choice, _, { r with pc := .waiting }, rfl, ?_, runsFor_setWork hr hres hid _, .inr rfl,
        load_wait hpc⟩
      simp only [State.step, State.workStep, hw, hhead, State.matchDoc, hpc]
  · by_cases hdone : r.sub.Done
    · have hstep : s.step (.work i choice) = some ({ s with
          docs := s.docs.modify node fun res => { res with answerLen := choice.order.length, answer := choice.order }
          stored := s.stored ++ [(res.docId, choice.order)] }.setWork i (.matching { r with pc := .moving })) := by
        simp only [State.step, State.workStep, hw, hhead, State.matchDoc, hpc, if_pos hdone, hres, Option.bind_some]
        exact if_pos (List.Perm.refl _)
      exact .inr ⟨.work i choice, _, choice.order, rfl, hstep,
        List.mem_append_right _ (List.mem_singleton.2 (by rw [hid]))⟩
    · -- a worker with a job in its queue goes on
      obtain ⟨j, hne⟩ : ∃ j, r.sub.queue j ≠ [] := by
        by_contra hno
        exact hdone fun j => by_contra fun hne => hno ⟨j, hne⟩
      by_cases hidle : r.tasks j = .idle
      · have hrun := hok j
        rw [hidle] at hrun
        obtain ⟨sub, hstart⟩ : ∃ sub, r.sub.start j = some sub := ⟨_, if_pos ⟨hrun, hne⟩⟩
        refine .inl ⟨.startTask i j, _, { r with sub := sub, tasks := Function.update r.tasks j .called }, rfl, ?_,
          runsFor_setWork hr hres hid _, .inr hpc, load_start hidle hstart⟩
        simp only [State.step, hr, Option.bind_some, hstart, Option.map_some]
        rfl
      · by_cases hfinished : r.tasks j = .done
        · have hrun := hok j
          rw [hfinished] at hrun
          obtain ⟨sub, hfinish⟩ : ∃ sub, r.sub.finish j = some sub := ⟨_, if_pos hrun.1⟩
          refine .inl ⟨.finishTask i j, _, { r with sub := sub, tasks := Function.update r.tasks j .idle }, rfl, ?_,
            runsFor_setWork hr hres hid _, .inr hpc, load_finish hfinished hne hfinish⟩
          simp only [State.step, hr, Option.bind_some, hfinished, hfinish, Option.map_some]
          rfl
        · obtain ⟨docs, t, hstep, ⟨res', hres', hid'⟩, hload⟩ :=
            Seen.task_step h hd hs hr hres hid hshort hidle hfinished
          exact .inl ⟨.task i j, _, { r with tasks := Function.update r.tasks j t }, rfl, hstep,
            runsFor_setWork hr hres' hid' _, .inr hpc, hload⟩

omit h hd hs hr hres hid

omit [NeZero n] in
theorem Act.OfRun.not_call {b : Act n} (hb : b.OfRun i) : b.startId = none ∧ b.endId = none ∧ b.document = none ∧
    b.asked = none ∧ b.Valid := by
  cases b <;> first | exact hb.elim | exact ⟨rfl, rfl, rfl, rfl, trivial⟩

omit [NeZero n] in
theorem Valid.snoc (hv : Valid as) {b : Act n} (hb : b.OfRun i) : Valid (as ++ [b]) := by
  obtain ⟨hstart, hend, hdoc, -, hvalid⟩ := hb.not_call
  refine ⟨⟨?_, ?_⟩, fun a ha => ?_, ?_⟩
  · rw [startIds_snoc, hstart, Option.toList_none, List.append_nil]
    exact hv.starts
  · rw [endIds_snoc, hend, Option.toList_none, List.append_nil]
    exact hv.ends
  · rcases List.mem_append.1 ha with ha | ha
    · exact hv.acts a ha
    · exact List.mem_singleton.1 ha ▸ hvalid
  · rw [documents_none as hdoc]
    exact hv.docs

/-- **A run ends.** By steps of its own alone, a `match_doc` stores its answer. -/
theorem Seen.ends (hshort : HasTrees doc) (has : run State.step State.init as = some s) (hv : Valid as)
    (hd : (d, doc) ∈ documents as) (hs : Seen d doc as s) (hr : RunsFor s i node r d) (hopen : r.Open) :
    ∃ bs t ids, (∀ b ∈ bs, b.OfRun i) ∧ run State.step s bs = some t ∧ (d, ids) ∈ t.stored := by
  induction hload : r.load using WellFoundedLT.induction generalizing as s r with
  | ind load ih =>
    obtain ⟨hrun, res, hres, hid⟩ := hr
    have h := known has hv
    rcases Seen.advance h hd hs hrun hres hid hshort hopen with ⟨b, t, r', hb, hstep, hruns, hopen', hlt⟩ | ⟨b, t, ids, hb, hstep, hids⟩
    · obtain ⟨-, -, hdoc, hask, -⟩ := hb.not_call
      have has' : run State.step State.init (as ++ [b]) = some t := by rw [run_snoc, has, Option.bind_some, hstep]
      have hv' := hv.snoc hb
      have hs' : Seen d doc (as ++ [b]) t := Seen.step h (known has' hv') (step_move hstep) hd
        (fun q hq => by rw [hask] at hq; cases hq) hs
      obtain ⟨bs, u, ids, hbs, hrun, hids⟩ := ih _ (hload ▸ hlt) has' hv' (by rwa [documents_none as hdoc]) hs'
        hruns hopen' rfl
      refine ⟨b :: bs, u, ids, fun c hc => ?_, by simp only [run, hstep, Option.bind_some, hrun], hids⟩
      rcases List.mem_cons.1 hc with rfl | hc
      · exact hb
      · exact hbs c hc
    · refine ⟨[b], t, ids, fun c hc => ?_, by simp only [run, hstep, Option.bind_some], hids⟩
      rw [List.mem_singleton.1 hc]
      exact hb

end Progress

/-! ## The answer of a document -/

section Answer

variable {n : ℕ} [NeZero n] {s : State n} {as : List (Act n)} {d : ℕ} {doc : List Word}

/-- **The snapshot.** In every run in which no query is started that matches the document between its `MatchDocument` and
the point where its answer is stored, the answer has the queries that were active at the call and match the document,
each once, whatever calls come after it. -/
theorem snapshot (hr : run State.step State.init as = some s) (hv : Valid as) (hd : (d, doc) ∈ documents as)
    (hapart : Meets State.step State.init (Apart d doc) as) {ids : List ℕ} (hids : (d, ids) ∈ s.stored) :
    AnswerOf as d doc ids := (seen hr hv hd hapart).answers ids hids

/-- no query that is started after the call matches the document -/
theorem apart_of_after {pre post : List (Act n)} {m : Act n} (hnew : d ∉ (documents pre).map Prod.fst)
    (hm : m.asked = none) (hpost : ∀ b ∈ post, ∀ q ∈ b.asked, ¬ q.Matches doc) :
    Meets State.step State.init (Apart d doc) (pre ++ m :: post) := by
  intro pre' a post' u heq _ q hask hd _
  rcases List.append_eq_append_iff.1 heq with ⟨later, rfl, hlater⟩ | ⟨rest, rfl, hrest⟩
  · cases later with
    | nil =>
      cases hlater
      rw [hm] at hask
      cases hask
    | cons b later =>
      cases hlater
      exact hpost a (List.mem_append_right _ List.mem_cons_self) q hask
  · -- the query is started before the call
    refine absurd ?_ hnew
    rw [documents, List.filterMap_append, List.map_append]
    exact List.mem_append_left _ hd

end Answer

/-- the query `abcd` with id 5, inserted by the first worker -/
def firstQuery : List (Act 2) :=
  let i : Fin 2 := ⟨0, Nat.two_pos⟩
  let client : Act 2 := .client fun _ => true
  [.startQuery 5 [97, 98, 99, 100] (some .exactMatch) 0, client, client, client, .start i,
    .work i ⟨⟨0, bkTreeSkipListLevels_pos⟩, fun _ => true, []⟩, .finish i]

/-- the second worker runs `match_doc` for the document `abcd`, in which `found` queries are found -/
def runDocument (found : ℕ) (order : List ℕ) : List (Act 2) :=
  let i : Fin 2 := ⟨1, Nat.one_lt_two⟩
  let choice : Choice 2 := ⟨⟨0, bkTreeSkipListLevels_pos⟩, fun _ => true, order⟩
  .start i :: List.replicate 5 (.work i choice) ++ runTasks i [2, 2, found + 3] ++ [.work i choice]

/-- `MatchDocument(7, "abcd")` returns, then a query of word `w` is started, and inserted before `match_doc` runs -/
def lateQuery (w : Word) (found : ℕ) (order : List ℕ) : List (Act 2) :=
  let i : Fin 2 := ⟨0, Nat.two_pos⟩
  let client : Act 2 := .client fun _ => true
  firstQuery ++ .matchDocument 7 [97, 98, 99, 100] :: (List.replicate 4 client ++
    [.startQuery 1 w (some .exactMatch) 0, client, client, client, .start i,
      .work i ⟨⟨0, bkTreeSkipListLevels_pos⟩, fun _ => true, []⟩, .finish i] ++ runDocument found order)

theorem validText_word {w : Word} (hlen : minWordLength ≤ w.length ∧ w.length ≤ maxWordLength) (hspace : 32 ∉ w)
    (hnul : 0 ∉ w) : ValidText w := by
  have h := (@validText_intercalate [w] (List.cons_ne_nil _ _)
    (fun _ hw => List.mem_singleton.1 hw ▸ ⟨hlen.1, hlen.2, hspace, hnul⟩)).1
  simpa [List.intercalate] using h

theorem lateQuery_acts {w : Word} (hw : ValidText w) (found : ℕ) (order : List ℕ) :
    ∀ a ∈ lateQuery w found order, a.Valid := by
  have hdoc : ValidText [97, 98, 99, 100] := validText_word (by decide) (by decide) (by decide)
  intro a ha
  cases a with
  | startQuery id str t dist =>
    simp only [lateQuery, firstQuery, runDocument, runTasks] at ha
    simp at ha
    rcases ha with ⟨-, rfl, rfl, rfl⟩ | ⟨-, rfl, rfl, rfl⟩
    · exact ⟨hdoc, rfl, by decide⟩
    · exact ⟨hw, rfl, by decide⟩
  | matchDocument id str =>
    simp only [lateQuery, firstQuery, runDocument, runTasks] at ha
    simp at ha
    exact ha.2 ▸ hdoc
  | _ => trivial

/-- a query of another word -/
theorem snapshot_apart : ∃ s, run State.step State.init (lateQuery [119, 120, 121, 122] 1 [5]) = some s ∧
    (7, [5]) ∈ s.stored ∧ AnswerOf (lateQuery [119, 120, 121, 122] 1 [5]) 7 [[97, 98, 99, 100]] [5] := by
  have hobs : (run State.step State.init (lateQuery [119, 120, 121, 122] 1 [5])).map State.stored = some [(7, [5])] := by
    decide +kernel
  obtain ⟨s, hs, hstored⟩ := Option.map_eq_some_iff.1 hobs
  have hids : (7, [5]) ∈ s.stored := by rw [hstored]; exact List.mem_singleton_self _
  have hv : Valid (lateQuery [119, 120, 121, 122] 1 [5]) :=
    ⟨⟨by decide, by decide⟩, lateQuery_acts (validText_word (by decide) (by decide) (by decide)) 1 [5], by decide⟩
  exact ⟨s, hs, hids, snapshot hs hv (by decide) (apart_of_after (by decide) rfl (by decide +kernel)) hids⟩

/-- a query of the same word: it is reported, although it was not active when `MatchDocument` was called -/
theorem late_query_reported : ¬ ∀ (as : List (Act 2)) s d doc ids, run State.step State.init as = some s → Valid as →
    (d, doc) ∈ documents as → (d, ids) ∈ s.stored → AnswerOf as d doc ids := by
  intro hclaim
  have hobs : (run State.step State.init (lateQuery [97, 98, 99, 100] 2 [5, 1])).map State.stored = some [(7, [5, 1])] := by
    decide +kernel
  obtain ⟨s, hs, hstored⟩ := Option.map_eq_some_iff.1 hobs
  have hids : (7, [5, 1]) ∈ s.stored := by rw [hstored]; exact List.mem_singleton_self _
  have hv : Valid (lateQuery [97, 98, 99, 100] 2 [5, 1]) :=
    ⟨⟨by decide, by decide⟩, lateQuery_acts (validText_word (by decide) (by decide) (by decide)) 2 [5, 1], by decide⟩
  obtain ⟨-, hanswer⟩ := hclaim _ s 7 [[97, 98, 99, 100]] [5, 1] hs hv (by decide) hids
  obtain ⟨q, hq, hid, -⟩ := (hanswer 1).1 (by decide)
  have hactive : (activeAt (lateQuery [97, 98, 99, 100] 2 [5, 1]) 7).map Asked.id = [5] := by decide +kernel
  have hmem := List.mem_map_of_mem (f := Asked.id) hq
  rw [hactive, hid] at hmem
  exact absurd hmem (by decide)

/-! ## The answer on a quiescent index -/

/-- words with single spaces between them, of lengths for which there are trees -/
def SingleSpaced (str : List UInt8) : Prop :=
  ∃ ws : List Word, ws ≠ [] ∧ str = [32].intercalate ws ∧
    ∀ w ∈ ws, minWordLength ≤ w.length ∧ w.length - minWordLength < hammingBkTrees ∧ 32 ∉ w ∧ 0 ∉ w

def Act.Plain {n : ℕ} : Act n → Prop
  | .startQuery _ str t dist => SingleSpaced str ∧ t.isSome ∧ dist ≤ 3
  | .matchDocument _ docStr => SingleSpaced docStr
  | _ => True

section Quiescent

variable {n : ℕ} {s : State n} {str : List UInt8} {d : ℕ} {pre post : List (Act n)}

theorem SingleSpaced.valid (h : SingleSpaced str) : ValidText str ∧ HasTrees (words 32 str) := by
  obtain ⟨ws, hne, rfl, hws⟩ := h
  have hlen : ∀ w ∈ ws, minWordLength ≤ w.length ∧ w.length ≤ maxWordLength ∧ 32 ∉ w ∧ 0 ∉ w := by
    intro w hw
    obtain ⟨hmin, htree, hspace, hnul⟩ := hws w hw
    have hsize : hammingBkTrees = maxWordLength - minWordLength := rfl
    exact ⟨hmin, by omega, hspace, hnul⟩
  obtain ⟨hvalid, hwords⟩ := validText_intercalate hne hlen
  refine ⟨hvalid, ?_⟩
  rw [hwords]
  exact fun w hw => (hws w hw).2.1

theorem Act.Plain.valid {a : Act n} (h : a.Plain) : a.Valid := by
  cases a with
  | startQuery id str t dist => exact ⟨h.1.valid.1, h.2⟩
  | matchDocument id str => exact (SingleSpaced.valid h).1
  | _ => trivial

theorem Act.asked_isQueryCall {b : Act n} {q : Asked} (h : q ∈ b.asked) : b.IsQueryCall := by
  cases b <;> trivial

variable [NeZero n]

/-- **The answer on a quiescent index.** After any calls, a document, and no `StartQuery` or `EndQuery` after its
`MatchDocument`: what is stored for it are the ids of the active queries that match it, each once, and a `match_doc` that
runs for it stores an answer by its own steps, none of which is undefined. -/
theorem quiescent (hr : run State.step State.init (pre ++ .matchDocument d str :: post) = some s)
    (hdist : DistinctCalls (pre ++ .matchDocument d str :: post))
    (hdocs : ((documents (pre ++ .matchDocument d str :: post)).map Prod.fst).Nodup)
    (hplain : ∀ a ∈ pre ++ .matchDocument d str :: post, a.Plain) (hquiet : ∀ b ∈ post, ¬ b.IsQueryCall) :
    (∀ ids, (d, ids) ∈ s.stored → ids.Nodup ∧
      ∀ id, id ∈ ids ↔ ∃ q ∈ activeAfter pre, q.id = id ∧ q.Matches (words 32 str)) ∧
    ∀ i node r, RunsFor s i node r d → r.Open →
      ∃ bs t ids, (∀ b ∈ bs, b.OfRun i) ∧ run State.step s bs = some t ∧ (d, ids) ∈ t.stored := by
  have hv : Valid (pre ++ .matchDocument d str :: post) := ⟨hdist, fun a ha => (hplain a ha).valid, hdocs⟩
  have hcall : (Act.matchDocument d str : Act n).document = some (d, words 32 str) := rfl
  have hnew : d ∉ (documents pre).map Prod.fst := by
    intro hmem
    rw [documents, List.filterMap_append, List.filterMap_cons, hcall, List.map_append, List.nodup_append] at hdocs
    exact hdocs.2.2 d hmem d List.mem_cons_self rfl
  have hd : (d, words 32 str) ∈ documents (pre ++ .matchDocument d str :: post) :=
    List.mem_filterMap.2 ⟨_, List.mem_append_right _ List.mem_cons_self, hcall⟩
  have hs := seen hr hv hd (apart_of_after hnew rfl fun b hb q hq =>
    absurd (Act.asked_isQueryCall hq) (hquiet b hb))
  refine ⟨fun ids hids => ?_, fun i node r hrun hopen => ?_⟩
  · have hanswer := hs.answers ids hids
    rwa [AnswerOf, activeAt, before_call hnew hcall] at hanswer
  · have htext : SingleSpaced str := hplain _ (List.mem_append_right _ List.mem_cons_self)
    exact Seen.ends htext.valid.2 hr hv hd hs hrun hopen

end Quiescent

/-- one query and one document of the same word -/
theorem quiescent_one : ∃ s, run State.step State.init (firstQuery ++ .matchDocument 7 [97, 98, 99, 100] ::
      (List.replicate 4 (.client fun _ => true) ++ runDocument 1 [5])) = some s ∧ (7, [5]) ∈ s.stored ∧
    ∀ id, id ∈ [5] ↔ ∃ q ∈ activeAfter firstQuery, q.id = id ∧ q.Matches (words 32 [97, 98, 99, 100]) := by
  have hobs : (run State.step State.init (firstQuery ++ .matchDocument 7 [97, 98, 99, 100] ::
      (List.replicate 4 (.client fun _ => true) ++ runDocument 1 [5]))).map State.stored = some [(7, [5])] := by
    decide +kernel
  obtain ⟨s, hs, hstored⟩ := Option.map_eq_some_iff.1 hobs
  have hids : (7, [5]) ∈ s.stored := by rw [hstored]; exact List.mem_singleton_self _
  have htext : SingleSpaced [97, 98, 99, 100] :=
    ⟨[[97, 98, 99, 100]], List.cons_ne_nil _ _, by decide, by decide⟩
  have hplain : ∀ a ∈ (firstQuery ++ .matchDocument 7 [97, 98, 99, 100] ::
      (List.replicate 4 (.client fun _ => true) ++ runDocument 1 [5])), a.Plain := by
    intro a ha
    cases a with
    | startQuery id str t dist =>
      simp [firstQuery, runDocument, runTasks] at ha
      obtain ⟨-, rfl, rfl, rfl⟩ := ha
      exact ⟨htext, rfl, by decide⟩
    | matchDocument id str =>
      simp [firstQuery, runDocument, runTasks] at ha
      exact ha.2 ▸ htext
    | _ => trivial
  have hquiet : ∀ b ∈ (List.replicate 4 (.client fun _ => true) ++ runDocument 1 [5] : List (Act 2)),
      ¬ b.IsQueryCall := by
    intro b hb hquery
    cases b with
    | startQuery | endQuery => simp [runDocument, runTasks] at hb
    | _ => exact hquery
  exact ⟨s, hs, hids, ((quiescent hs ⟨by decide, by decide⟩ (by decide) hplain hquiet).1 [5] hids).2⟩

end K23Search.Core
