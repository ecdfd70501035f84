/-
One document: what the searches of `match_doc` find, and what a running `match_doc` has recorded and has still to do.

Results:
- `search_finds`, `searchExact_finds`: a search finds active queries with a word that matches, and all of them whose
  words are inserted;
- `Matching`: every match of a query of the snapshot is recorded, or the work of a job that is not done;
- `Matching.mem_answers`: when the jobs are done, the answer has the queries of the snapshot that fit the document.
-/
import K23Search.Core.Registry

namespace K23Search.Core

open K23Search.Lib K23Search.Text

/-! ## Searches -/

/-- where `StartQuery` posts the words of a query -/
def Slot.ofType (t : MatchType) (u : Word) : Slot :=
  match t with
  | .editDist => .tree .edit
  | .hammingDist => .tree (hammingTree u)
  | .exactMatch => .exact

/-- the job of `match_doc` for the queries of a type -/
def matchJob (t : MatchType) (w : Word) : MatchJob :=
  match t with
  | .editDist => .matchQueries .edit w .editDist
  | .hammingDist => .matchQueries (hammingTree w) w .hammingDist
  | .exactMatch => .matchExact w

/-- each word of the query has a word in the document that matches it -/
def Query.Fits (q : Query) (doc : List Word) : Prop :=
  ∀ u ∈ q.uniqueWords.toList, ∃ w ∈ doc, WordMatch q.matchType q.matchDist u w

section Searches

variable {n : ℕ} {s : State n}

theorem mem_insertJobs {t : MatchType} {p : ℕ} {ws : List Word} {j : Job} :
    j ∈ insertJobs t p ws ↔ ∃ u ∈ ws, (Slot.ofType t u).job u p = j := by
  rw [insertJobs, List.mem_map]
  cases t <;> rfl

theorem mem_matchJobs_iff {ws : List Word} {job : MatchJob} :
    job ∈ matchJobs ws ↔ ∃ t, ∃ w ∈ ws, matchJob t w = job := by
  rw [matchJobs, List.mem_flatMap]
  constructor
  · intro h
    obtain ⟨w, hw, hjob⟩ := h
    simp only [List.mem_cons, List.not_mem_nil, or_false] at hjob
    rcases hjob with rfl | rfl | rfl
    · exact ⟨.editDist, w, hw, rfl⟩
    · exact ⟨.hammingDist, w, hw, rfl⟩
    · exact ⟨.exactMatch, w, hw, rfl⟩
  · intro h
    obtain ⟨t, w, hw, rfl⟩ := h
    exact ⟨w, hw, by cases t <;> simp [matchJob]⟩

theorem matchJob_inj {t t' : MatchType} {w w' : Word} (h : matchJob t w = matchJob t' w') : t = t' ∧ w = w' := by
  cases t <;> cases t' <;> simp_all [matchJob]

/-- the three types post in different places -/
theorem Slot.ofType_type {t t' : MatchType} {u u' : Word} (h : Slot.ofType t u = Slot.ofType t' u') : t = t' := by
  cases t <;> cases t' <;> simp_all [Slot.ofType, hammingTree]

/-- a posting is that of a word of its query -/
theorem IndexOk.posted (h : IndexOk s) {slot : Slot} {u : Word} {p : ℕ} (hp : s.index.Posts slot u p) :
    ∃ q : Query, s.heap[p]? = some q ∧ u ∈ q.uniqueWords.toList ∧ slot = Slot.ofType q.matchType u := by
  have hnode : (slot.job u p).node = none := by cases slot <;> rfl
  obtain ⟨p', q, hq, hj⟩ := h.sound _ ⟨slot, u, p, rfl, hp⟩ hnode
  obtain ⟨u', hu', heq⟩ := mem_insertJobs.1 hj
  obtain ⟨rfl, rfl, rfl⟩ := Slot.job_inj.1 heq
  exact ⟨q, hq, hu', rfl⟩

/-- a word of a query whose insertion is not pending is posted -/
theorem IndexOk.posts (h : IndexOk s) {p : ℕ} {q : Query} (hq : s.heap[p]? = some q) {u : Word}
    (hu : u ∈ q.uniqueWords.toList) (hpend : ¬ ((Slot.ofType q.matchType u).job u p).Pending s) :
    s.index.Posts (Slot.ofType q.matchType u) u p :=
  inserted_job.1 ((h.complete p q hq _ (mem_insertJobs.2 ⟨u, hu, rfl⟩)).resolve_left hpend)

/-- the words within a threshold in the tree of a word are those that match it -/
theorem wordMatch_iff {t : MatchType} {u w : Word} {r : TreeRef} (hr : Slot.ofType t w = .tree r)
    (hu : minWordLength ≤ u.length ∧ u.length ≤ maxWordLength)
    (hw : minWordLength ≤ w.length ∧ w.length ≤ maxWordLength) (k : ℕ) :
    WordMatch t k u w ↔ Slot.ofType t u = .tree r ∧ r.d u w ≤ k := by
  cases t with
  | exactMatch => cases hr
  | editDist =>
    cases hr
    simp [WordMatch, Slot.ofType, TreeRef.d]
  | hammingDist =>
    have htree : hammingTree w = r := Slot.tree.inj hr
    rw [hammingTree_eq hw.1 hw.2] at htree
    subst htree
    have hlen : u.length - minWordLength = w.length - minWordLength ↔ u.length = w.length := by omega
    simp only [WordMatch, Slot.ofType, hammingTree_eq hu.1 hu.2, Slot.tree.injEq, TreeRef.hamming.injEq, hlen,
      TreeRef.d, Nat.cast_le]

/-- **A search of a tree** finds active queries with a word that matches, and all of them that are posted. -/
theorem search_finds (hix : IndexOk s) (hfit : WordsFit s.heap) {t : MatchType} {r : TreeRef} {w : Word} {key : ℕ}
    {calls : List (ℕ × Word)} (hjob : matchJob t w = .matchQueries r w t)
    (hw : minWordLength ≤ w.length ∧ w.length ≤ maxWordLength) (hkey : key < 2 ^ 30)
    (hs : s.index.search s.heap r key w = some calls) :
    (∀ c ∈ calls, ∃ q : Query, s.heap[c.1]? = some q ∧ q.active = true ∧ c.2 ∈ q.uniqueWords.toList ∧
      WordMatch q.matchType q.matchDist c.2 w) ∧
    ∀ (p : ℕ) (u : Word) (q : Query), s.heap[p]? = some q → q.active = true → q.matchType = t → q.matchDist = key →
      u ∈ q.uniqueWords.toList → WordMatch q.matchType q.matchDist u w →
      s.index.Posts (Slot.ofType q.matchType u) u p → (p, u) ∈ calls := by
  have hr : Slot.ofType t w = .tree r := by
    cases t <;> simp_all [matchJob, Slot.ofType]
  have hmem : w ∈ r.words := by
    cases t with
    | exactMatch => cases hr
    | editDist =>
      cases hr
      exact hw.2
    | hammingDist =>
      rw [← Slot.tree.inj hr]
      exact mem_hammingTree hw.1 hw.2
  obtain ⟨tree, htree, -⟩ := Option.bind_eq_some_iff.1 hs
  obtain ⟨found, hfound, hiff⟩ := Index.search_spec hix.ok htree hmem hkey s.heap
  cases hs.symm.trans hfound
  constructor
  · rintro ⟨p, u⟩ hc
    obtain ⟨hpost, hd, hwant⟩ := (hiff p u).1 hc
    obtain ⟨q, hq, hu, hslot⟩ := hix.posted hpost
    obtain ⟨hact, hdist⟩ : q.active = true ∧ q.matchDist = key := by simpa [Index.wanted, hq] using hwant
    refine ⟨q, hq, hact, hu, ?_⟩
    have htype : q.matchType = t := (Slot.ofType_type (hr.trans hslot)).symm
    rw [htype, hdist, wordMatch_iff hr (hfit q (List.mem_of_getElem? hq) u hu) hw]
    exact ⟨(htype ▸ hslot).symm, hd⟩
  · rintro p u q hq hact rfl rfl hu hmatch hpost
    obtain ⟨hslot, hd⟩ := (wordMatch_iff hr (hfit q (List.mem_of_getElem? hq) u hu) hw _).1 hmatch
    refine (hiff p u).2 ⟨hslot ▸ hpost, hd, ?_⟩
    simp [Index.wanted, hq, hact]

/-- **A search of the table of exact words** finds the active queries with the word, when they are posted. -/
theorem searchExact_finds (hix : IndexOk s) (w : Word) :
    (∀ c ∈ s.index.searchExact s.heap w, ∃ q : Query, s.heap[c.1]? = some q ∧ q.active = true ∧
      c.2 ∈ q.uniqueWords.toList ∧ WordMatch q.matchType q.matchDist c.2 w) ∧
    ∀ (p : ℕ) (u : Word) (q : Query), s.heap[p]? = some q → q.active = true → q.matchType = .exactMatch →
      WordMatch q.matchType q.matchDist u w → s.index.Posts (Slot.ofType q.matchType u) u p →
      (p, u) ∈ s.index.searchExact s.heap w := by
  constructor
  · rintro ⟨p, u⟩ hc
    obtain ⟨hpost, rfl, hact⟩ := (Index.mem_searchExact ..).1 hc
    obtain ⟨q, hq, hu, hslot⟩ := hix.posted hpost
    have htype : q.matchType = .exactMatch := (@Slot.ofType_type .exactMatch _ u u hslot).symm
    refine ⟨q, hq, by simpa [hq] using hact, hu, ?_⟩
    rw [htype]
    rfl
  · intro p u q hq hact htype hmatch hpost
    rw [htype] at hmatch hpost
    exact (Index.mem_searchExact ..).2 ⟨hpost, hmatch, by simp [hq, hact]⟩

end Searches

/-! ## The work of a `match_doc` -/

/-- word `u` of query `p` may be recorded for the document: a query that is not of the snapshot does not fit it -/
def MayRecord (queries : List Query) (snap : ℕ → Prop) (doc : List Word) (p : ℕ) (u : Word) : Prop :=
  ∃ q : Query, queries[p]? = some q ∧ u ∈ q.uniqueWords.toList ∧
    (∃ w ∈ doc, WordMatch q.matchType q.matchDist u w) ∧ (snap p ∨ ¬ q.Fits doc)

/-- the calls that the loop over the payloads has still to make -/
def Task.calls : Task → List (ℕ × Word)
  | .adding calls _ => calls
  | _ => []

/-- the thresholds that are still to be searched -/
def Task.keys : Task → List ℕ
  | .searching keys => keys
  | .adding _ keys => keys
  | _ => []

/-- the worker has still to record word `u` of query `p`, which has threshold `key` -/
def Task.Due (t : Task) (key p : ℕ) (u : Word) : Prop :=
  match t with
  | .idle => True
  | .called => True
  | .searching keys => key ∈ keys
  | .adding calls keys => (p, u) ∈ calls ∨ key ∈ keys
  | .done => False

/-- this job is not done, and has still to record the word -/
def DocRun.Due (r : DocRun) (job : MatchJob) (key p : ℕ) (u : Word) : Prop :=
  (∃ rest, r.pc = .submitting rest ∧ job ∈ rest) ∨
    ∃ j, job ∈ (r.sub.queue j).tail ∨ ((r.sub.queue j).head? = some job ∧ (r.tasks j).Due key p u)

/-- what a running `match_doc` has recorded in `rt`, and what it has still to do -/
structure Matching (queries : List Query) (snap : ℕ → Prop) (doc : List Word) (rt : ResultTable) (r : DocRun) : Prop where
  calls : ∀ j, ∀ c ∈ (r.tasks j).calls, MayRecord queries snap doc c.1 c.2
  keys : ∀ j, ∀ key ∈ (r.tasks j).keys, key < 2 ^ 30 ∧ ∃ ix w t, (r.sub.queue j).head? = some (.matchQueries ix w t)
  due : ∀ (p : ℕ) (q : Query) (u w : Word), snap p → queries[p]? = some q → u ∈ q.uniqueWords.toList → w ∈ doc →
    WordMatch q.matchType q.matchDist u w → Recorded queries rt p u ∨ r.Due (matchJob q.matchType w) q.matchDist p u
  past : (∀ rest, r.pc ≠ .submitting rest) → r.pc ≠ .waiting → r.sub.Done

section Matching

variable {queries queries' : List Query} {snap : ℕ → Prop} {doc : List Word} {rt rt' : ResultTable} {r : DocRun}

theorem MayRecord.mono {p : ℕ} {u : Word} (h : MayRecord queries snap doc p u) (hg : Grows queries queries') :
    MayRecord queries' snap doc p u := by
  obtain ⟨q, hq, hu, hw, hsnap⟩ := h
  obtain ⟨a, ha⟩ := hg p q hq
  exact ⟨_, ha, hu, hw, hsnap⟩

theorem MayRecord.own {p : ℕ} {u : Word} {q : Query} (h : MayRecord queries snap doc p u)
    (hq : queries[p]? = some q) : u ∈ q.uniqueWords.toList := by
  obtain ⟨q', hq', hu, -⟩ := h
  cases hq.symm.trans hq'
  exact hu

/-- `match_doc` begins -/
theorem matching_init {ws : List Word} (hws : ∀ w ∈ doc, w ∈ ws) :
    Matching queries snap doc rt ⟨.submitting (matchJobs ws), Jobs.init, fun _ => .idle⟩ where
  calls _ _ hc := by cases hc
  keys _ _ hkey := by cases hkey
  due p q u w _ _ _ hw _ := .inr (.inl ⟨_, rfl, mem_matchJobs_iff.2 ⟨_, w, hws w hw, rfl⟩⟩)
  past hpc _ := absurd rfl (hpc _)

/-- the queries change -/
theorem Matching.mono (h : Matching queries snap doc rt r) (hg : Grows queries queries')
    (hsnap : ∀ p, snap p → ∃ q, queries[p]? = some q) : Matching queries' snap doc rt r where
  calls j c hc := (h.calls j c hc).mono hg
  keys := h.keys
  due p q' u w hp hq' hu hw hmatch := by
    obtain ⟨q, hq⟩ := hsnap p hp
    obtain ⟨a, ha⟩ := hg p q hq
    cases hq'.symm.trans ha
    exact (h.due p q u w hp hq hu hw hmatch).imp_left fun hrec => hrec.mono hg
  past := h.past

/-- a job is submitted -/
theorem Matching.submit (h : Matching queries snap doc rt r) (hok : r.Ok) {job : MatchJob} {rest : List MatchJob}
    (hpc : r.pc = .submitting (job :: rest)) :
    Matching queries snap doc rt { r with pc := .submitting rest, sub := r.sub.submit job } where
  calls := h.calls
  keys j key hkey := by
    obtain ⟨hlt, ix, w, t, hhead⟩ := h.keys j key hkey
    refine ⟨hlt, ix, w, t, ?_⟩
    rcases Jobs.submit_queue r.sub job j with ⟨-, heq⟩ | ⟨-, heq⟩
    · rw [heq, hhead]
    · rw [heq, List.head?_append, hhead, Option.some_or]
  due p q u w hp hq hu hw hmatch := by
    refine (h.due p q u w hp hq hu hw hmatch).imp_right fun hdue => ?_
    have hkeep : ∀ j, ∃ more, (r.sub.submit job).queue j = r.sub.queue j ++ more := by
      intro j
      rcases Jobs.submit_queue r.sub job j with ⟨-, heq⟩ | ⟨-, heq⟩
      · exact ⟨[], by rw [heq, List.append_nil]⟩
      · exact ⟨[job], heq⟩
    rcases hdue with ⟨rest', hrest', hmem⟩ | ⟨j, hdue⟩
    · rw [hpc] at hrest'
      cases hrest'
      rcases List.mem_cons.1 hmem with rfl | hmem
      · -- the job that is submitted: behind another one, or at the head of the queue of an idle worker
        refine .inr ⟨r.sub.current, ?_⟩
        have heq := ((Jobs.submit_queue r.sub (matchJob q.matchType w) r.sub.current).resolve_left fun h => h.1 rfl).2
        have hidle := hok r.sub.current
        cases hqueue : r.sub.queue r.sub.current with
        | nil =>
          refine .inr ⟨by rw [heq, hqueue]; rfl, ?_⟩
          rw [hqueue] at hidle
          cases ht : r.tasks r.sub.current with
          | idle | called => trivial
          | _ =>
            rw [ht] at hidle
            exact absurd rfl hidle.2
        | cons first others => exact .inl (by rw [heq, hqueue]; simp)
      · exact .inl ⟨_, rfl, hmem⟩
    · have hne : r.sub.queue j ≠ [] := by
        rintro hnil
        simp [hnil] at hdue
      obtain ⟨more, heq⟩ := hkeep j
      refine .inr ⟨j, ?_⟩
      rw [heq, List.tail_append_of_ne_nil hne, List.head?_append_of_ne_nil _ hne]
      exact hdue.imp_left fun hmem => List.mem_append_left _ hmem
  past hnot _ := absurd rfl (hnot _)

/-- all jobs are submitted -/
theorem Matching.wait (h : Matching queries snap doc rt r) (hpc : r.pc = .submitting []) :
    Matching queries snap doc rt { r with pc := .waiting } where
  calls := h.calls
  keys := h.keys
  due p q u w hp hq hu hw hmatch := by
    refine (h.due p q u w hp hq hu hw hmatch).imp_right fun hdue => .inr (hdue.resolve_left ?_)
    rintro ⟨rest, hrest, hmem⟩
    rw [hpc] at hrest
    cases hrest
    cases hmem
  past _ hnot := absurd rfl hnot

/-- without a job that is not done, nothing is due -/
theorem DocRun.not_due (hdone : r.sub.Done) (hpc : ∀ rest, r.pc ≠ .submitting rest) (job : MatchJob) (key p : ℕ)
    (u : Word) : ¬ r.Due job key p u := by
  rintro (⟨rest, hrest, -⟩ | ⟨j, hdue⟩)
  · exact hpc rest hrest
  · simp [hdone j] at hdue

/-- the jobs are done -/
theorem Matching.pass (h : Matching queries snap doc rt r) (hdone : r.sub.Done)
    (hpc : ∀ rest, r.pc ≠ .submitting rest) (pc : DocPc) : Matching queries snap doc rt { r with pc := pc } where
  calls := h.calls
  keys := h.keys
  due p q u w hp hq hu hw hmatch :=
    .inl ((h.due p q u w hp hq hu hw hmatch).resolve_right (DocRun.not_due hdone hpc _ _ _ _))
  past _ _ := hdone

/-- a worker goes on with its job -/
theorem Matching.task (h : Matching queries snap doc rt r) {j : Fin 3} {t : Task}
    (hrec : ∀ p u, Recorded queries rt p u → Recorded queries rt' p u)
    (hcalls : ∀ c ∈ t.calls, MayRecord queries snap doc c.1 c.2)
    (hkeys : ∀ key ∈ t.keys, key < 2 ^ 30 ∧ ∃ ix w t, (r.sub.queue j).head? = some (.matchQueries ix w t))
    (hdue : ∀ (p : ℕ) (q : Query) (u w : Word), snap p → queries[p]? = some q → u ∈ q.uniqueWords.toList →
      WordMatch q.matchType q.matchDist u w → (r.sub.queue j).head? = some (matchJob q.matchType w) →
      (r.tasks j).Due q.matchDist p u → Recorded queries rt' p u ∨ t.Due q.matchDist p u) :
    Matching queries snap doc rt' { r with tasks := Function.update r.tasks j t } where
  calls k c hc := by
    by_cases hk : k = j
    · subst hk
      exact hcalls c (by simpa using hc)
    · exact h.calls k c (by simpa [hk] using hc)
  keys k key hkey := by
    by_cases hk : k = j
    · subst hk
      exact hkeys key (by simpa using hkey)
    · exact h.keys k key (by simpa [hk] using hkey)
  due p q u w hp hq hu hw hmatch := by
    rcases h.due p q u w hp hq hu hw hmatch with hold | hsub | ⟨k, htail | ⟨hhead, htask⟩⟩
    · exact .inl (hrec p u hold)
    · exact .inr (.inl hsub)
    · exact .inr (.inr ⟨k, .inl htail⟩)
    · by_cases hk : k = j
      · subst hk
        refine (hdue p q u w hp hq hu hmatch hhead htask).imp_right fun hnew => .inr ⟨k, .inr ⟨hhead, ?_⟩⟩
        simpa only [Function.update_self] using hnew
      · refine .inr (.inr ⟨k, .inr ⟨hhead, ?_⟩⟩)
        simpa only [Function.update_of_ne hk] using htask
  past := h.past

/-- all thresholds are searched -/
theorem Matching.searched (h : Matching queries snap doc rt r) {j : Fin 3} (ht : r.tasks j = .searching []) :
    Matching queries snap doc rt { r with tasks := Function.update r.tasks j .done } := by
  refine h.task (fun _ _ => id) (fun _ hc => nomatch hc) (fun _ hk => nomatch hk) fun _ _ _ _ _ _ _ _ _ hdue => ?_
  rw [ht] at hdue
  cases hdue

/-- all calls for a threshold are made -/
theorem Matching.added (h : Matching queries snap doc rt r) {j : Fin 3} {keys : List ℕ} (ht : r.tasks j = .adding [] keys) :
    Matching queries snap doc rt { r with tasks := Function.update r.tasks j (.searching keys) } := by
  refine h.task (fun _ _ => id) (fun _ hc => nomatch hc) (fun key hkey => ?_) fun _ _ _ _ _ _ _ _ _ hdue => ?_
  · exact h.keys j key (by rw [ht]; exact hkey)
  · rw [ht] at hdue
    exact .inr (hdue.resolve_left fun hcall => nomatch hcall)

/-- a worker starts the job at the head of its queue -/
theorem Matching.start (h : Matching queries snap doc rt r) {j : Fin 3} {sub : Jobs 3 MatchJob}
    (hs : r.sub.start j = some sub) :
    Matching queries snap doc rt { r with sub := sub, tasks := Function.update r.tasks j .called } := by
  obtain ⟨-, -, rfl⟩ := Jobs.start_some hs
  have htask := h.task (j := j) (t := .called) (fun _ _ => id) (fun _ hc => nomatch hc) (fun _ hk => nomatch hk)
    fun _ _ _ _ _ _ _ _ _ _ => .inr trivial
  exact ⟨htask.calls, htask.keys, htask.due, htask.past⟩

/-- a worker removes the job that is done -/
theorem Matching.finish (h : Matching queries snap doc rt r) {j : Fin 3} {sub : Jobs 3 MatchJob}
    (ht : r.tasks j = .done) (hs : r.sub.finish j = some sub) :
    Matching queries snap doc rt { r with sub := sub, tasks := Function.update r.tasks j .idle } := by
  obtain ⟨-, rfl⟩ := Jobs.finish_some hs
  constructor
  case calls =>
    intro k c hc
    by_cases hk : k = j
    · subst hk
      cases (by simpa using hc : c ∈ Task.calls .idle)
    · exact h.calls k c (by simpa [hk] using hc)
  case keys =>
    intro k key hkey
    by_cases hk : k = j
    · subst hk
      cases (by simpa using hkey : key ∈ Task.keys .idle)
    · simpa [hk] using h.keys k key (by simpa [hk] using hkey)
  case due =>
    intro p q u w hp hq hu hw hmatch
    refine (h.due p q u w hp hq hu hw hmatch).imp_right fun hdue => hdue.imp_right ?_
    rintro ⟨k, hk⟩
    refine ⟨k, ?_⟩
    by_cases hkj : k = j
    · subst hkj
      simp only [Function.update_self]
      have hmem : matchJob q.matchType w ∈ (r.sub.queue k).tail := hk.resolve_right fun hhead => by
        rw [ht] at hhead
        exact hhead.2
      -- the next job is at the head of the queue now, and its worker idle
      cases htail : (r.sub.queue k).tail with
      | nil =>
        rw [htail] at hmem
        cases hmem
      | cons next others =>
        rw [htail] at hmem
        rcases List.mem_cons.1 hmem with rfl | hmem
        · exact .inr ⟨rfl, trivial⟩
        · exact .inl hmem
    · simpa only [Function.update_of_ne hkj] using hk
  case past =>
    intro hnot hnot' k
    have hdone := h.past hnot hnot'
    by_cases hk : k = j
    · subst hk
      simp [hdone k]
    · simp [hk, hdone k]

/-- **The answer.** When the jobs are done, it has the queries of the snapshot that fit the document. -/
theorem Matching.mem_answers (h : Matching queries snap doc rt r) (hd : DistinctIds queries)
    (hok : ResultsOk queries (MayRecord queries snap doc) rt) (hne : ∀ q ∈ queries, q.uniqueWords.toList ≠ [])
    (hdone : r.sub.Done) (hpc : r.pc = .waiting) (id : ℕ) :
    id ∈ answers queries rt ↔ ∃ (p : ℕ) (q : Query), snap p ∧ queries[p]? = some q ∧ q.id = id ∧ q.Fits doc := by
  constructor
  · intro hid
    obtain ⟨p, q, hq, rfl, hall⟩ := of_mem_answers hok hid
    have hfits : q.Fits doc := by
      intro u hu
      obtain ⟨q', hq', -, hw, -⟩ := hall u hu
      cases hq.symm.trans hq'
      exact hw
    obtain ⟨u, hu⟩ := List.exists_mem_of_ne_nil _ (hne q (List.mem_of_getElem? hq))
    obtain ⟨q', hq', -, -, hsnap⟩ := hall u hu
    cases hq.symm.trans hq'
    exact ⟨p, q, hsnap.resolve_right fun hnot => hnot hfits, hq, rfl, hfits⟩
  · rintro ⟨p, q, hp, hq, rfl, hfits⟩
    refine mem_answers_of_recorded hd hok (fun _ _ _ hmay hq => hmay.own hq) hq (hne q (List.mem_of_getElem? hq))
      fun u hu => ?_
    obtain ⟨w, hw, hmatch⟩ := hfits u hu
    exact (h.due p q u w hp hq hu hw hmatch).resolve_right (DocRun.not_due hdone (by rw [hpc]; exact nofun) _ _ _ _)

end Matching

end K23Search.Core
