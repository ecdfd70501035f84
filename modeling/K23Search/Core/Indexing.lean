/-
The word indexes over a run: an index holds the words of the queries started, each in the tree or table of its query's
matching type, except those whose insertions are still to come.

Results:
- `Move.insertStep`: what a step does to the insertions;
- `indexOk`: what the indexes hold, in every reachable state;
- `hamming_partition`: the words of tree `k` have length `k + MIN_WORD_LENGTH`, and every subscript is below
  `HAMMING_BK_TREES`, in every run in which no word of a Hamming query or document has `MAX_WORD_LENGTH` characters.
Counterexample:
- `subscript_out_of_bounds`: the subscript for a word of `MAX_WORD_LENGTH` characters.
-/
import K23Search.Core.Records

namespace K23Search.Core

open K23Search.Lib K23Search.Text

/-! ## Insertions -/

/-- the insertion that leads to a posting -/
def Slot.job (slot : Slot) (u : Word) (p : ℕ) : Job :=
  match slot with
  | .tree r => .addToTree p u r
  | .exact => .addToHashTable p u

/-- the word is in its index -/
def Job.Inserted (ix : Index) (j : Job) : Prop := ∃ slot u p, slot.job u p = j ∧ ix.Posts slot u p

/-- the job takes the index to this one -/
def Job.Makes (j : Job) (ix ix' : Index) : Prop :=
  match j with
  | .addToTree q u r => ∃ height < bkTreeSkipListLevels, ix.addToTree q u r height = some ix'
  | .addToHashTable q u => ix' = ix.addToHashTable q u
  | .matchDoc _ => False

/-- the job is still to insert its word -/
def Job.Pending {n : ℕ} (s : State n) (j : Job) : Prop :=
  (∃ p rest, s.client = .starting p rest ∧ j ∈ rest) ∨ ∃ i, j ∈ s.jobsBefore .unlinked i

/-- what a step does to the insertions: nothing, it adds those of a new query, or it makes one -/
inductive InsertStep {n : ℕ} (s s' : State n) : Prop where
  | same (hindex : s'.index = s.index) (hheap : s'.heap.map Query.started = s.heap.map Query.started)
      (hpend : ∀ j : Job, j.node = none → (j.Pending s' ↔ j.Pending s))
      (hflag : s'.queryHasStarted = false → s.queryHasStarted = false ∨ s.jobs.Done ∧ ∀ p rest, s.client ≠ .starting p rest)
  | query (q : Query) (hindex : s'.index = s.index) (hheap : s'.heap = s.heap ++ [q])
      (hpend : ∀ j : Job, j.node = none → (j.Pending s' ↔
        j.Pending s ∨ j ∈ insertJobs q.matchType s.heap.length q.uniqueWords.toList))
      (hflag : s'.queryHasStarted = true)
  | insert (j₀ : Job) (hj₀ : j₀.Makes s.index s'.index) (hheap : s'.heap = s.heap)
      (hmem : ∃ i, j₀ ∈ s.jobs.queue i) (hpend : ∀ j : Job, j.Pending s ↔ j = j₀ ∨ j.Pending s')
      (hflag : s'.queryHasStarted = s.queryHasStarted)

section Insertions

variable {n : ℕ} {s s' : State n} {a : Act n}

theorem pending_congr (hclient : ∀ p rest, s'.client = .starting p rest ↔ s.client = .starting p rest)
    (hjobs : ∀ k, s'.jobsBefore .unlinked k = s.jobsBefore .unlinked k) (j : Job) : j.Pending s' ↔ j.Pending s := by
  simp only [Job.Pending, hclient, hjobs]

/-- the client goes on, outside `StartQuery` -/
theorem pending_client (hold : ∀ p rest, s.client = .starting p rest → rest = []) (hnew : ∀ p rest, s'.client ≠ .starting p rest)
    (hjobs : ∀ k, s'.jobsBefore .unlinked k = s.jobsBefore .unlinked k) (j : Job) : j.Pending s' ↔ j.Pending s := by
  have hs : ¬ ∃ p rest, s.client = .starting p rest ∧ j ∈ rest := by
    intro h
    obtain ⟨p, rest, hc, hj⟩ := h
    rw [hold p rest hc] at hj
    cases hj
  have hs' : ¬ ∃ p rest, s'.client = .starting p rest ∧ j ∈ rest := fun ⟨p, rest, hc, _⟩ => hnew p rest hc
  simp only [Job.Pending, hs, hs', hjobs]

/-- worker `i` is done with the job at the head of its queue -/
theorem pending_done {i : Fin n} {j₀ : Job} (hqueue : s.jobsBefore .unlinked i = s.jobs.queue i)
    (hj : (s.jobs.queue i).head? = some j₀) (hclient : s'.client = s.client)
    (hjobs : ∀ k, s'.jobsBefore .unlinked k = (s.setWork i .done).jobsBefore .unlinked k) (j : Job) :
    j.Pending s ↔ j = j₀ ∨ j.Pending s' := by
  obtain ⟨hi, hne⟩ := @jobsBefore_done n s .unlinked i .done j₀ hj hqueue rfl
  have hsome : (∃ k, j ∈ s.jobsBefore .unlinked k) ↔ j = j₀ ∨ ∃ k, j ∈ s'.jobsBefore .unlinked k := by
    constructor
    · intro h
      obtain ⟨k, hk⟩ := h
      by_cases hki : k = i
      · subst hki
        rw [hi] at hk
        rcases List.mem_cons.1 hk with rfl | hk
        · exact .inl rfl
        · exact .inr ⟨k, by rwa [hjobs]⟩
      · exact .inr ⟨k, by rwa [hjobs, hne k hki]⟩
    · intro h
      rcases h with rfl | ⟨k, hk⟩
      · exact ⟨i, by rw [hi]; exact List.mem_cons_self⟩
      · rw [hjobs] at hk
        by_cases hki : k = i
        · subst hki
          exact ⟨k, by rw [hi]; exact List.mem_cons_of_mem _ hk⟩
        · exact ⟨k, by rwa [hne k hki] at hk⟩
  simp only [Job.Pending, hclient, hsome, or_left_comm]

variable [NeZero n]

/-- a job is submitted -/
theorem pending_submit (hc : Control s.jobs s.work) (j₀ : Job) (hjobs : s'.jobs = s.jobs.submit j₀)
    (hwork : s'.work = s.work) (hfin : s'.finishedResults = s.finishedResults) (j : Job) :
    (∃ k, j ∈ s'.jobsBefore .unlinked k) ↔ j = j₀ ∨ ∃ k, j ∈ s.jobsBefore .unlinked k := by
  have hqueue := fun k => @jobsBefore_submit n s s' .unlinked _ hc j₀ hjobs hwork (fun _ => by rw [hfin]) k
  have hcur := ((hqueue s.jobs.current).resolve_left fun h => h.1 rfl).2
  constructor
  · intro h
    obtain ⟨k, hk⟩ := h
    rcases hqueue k with ⟨-, heq⟩ | ⟨-, heq⟩
    · exact .inr ⟨k, heq ▸ hk⟩
    · rw [heq, List.mem_append, List.mem_singleton] at hk
      exact hk.symm.imp_right fun hk => ⟨k, hk⟩
  · intro h
    rcases h with rfl | ⟨k, hk⟩
    · exact ⟨s.jobs.current, by rw [hcur]; exact List.mem_append_right _ (List.mem_singleton_self _)⟩
    · rcases hqueue k with ⟨-, heq⟩ | ⟨-, heq⟩
      · exact ⟨k, heq ▸ hk⟩
      · exact ⟨k, by rw [heq]; exact List.mem_append_left _ hk⟩

/-- **What a step does to the insertions.** -/
theorem Move.insertStep (hm : Move s a s') (hc : Control s.jobs s.work) : InsertStep s s' := by
  have hclient : (∀ p rest, s.client = .starting p rest → rest = []) → (∀ p rest, s'.client ≠ .starting p rest) →
      (∀ k, s'.jobsBefore .unlinked k = s.jobsBefore .unlinked k) → ∀ j : Job, j.node = none →
      (j.Pending s' ↔ j.Pending s) := fun hold hnew hjobs j _ => pending_client hold hnew hjobs j
  have hsame : s'.client = s.client → (∀ k, s'.jobsBefore .unlinked k = s.jobsBefore .unlinked k) →
      ∀ j : Job, j.node = none → (j.Pending s' ↔ j.Pending s) :=
    fun hcl hjobs j _ => pending_congr (fun _ _ => by rw [hcl]) hjobs j
  have hflag : s'.queryHasStarted = s.queryHasStarted → s'.queryHasStarted = false →
      s.queryHasStarted = false ∨ s.jobs.Done ∧ ∀ p rest, s.client ≠ .starting p rest := fun heq h => .inl (heq ▸ h)
  cases hm
  case startQuery id str t dist ws hcl hw =>
    refine .query _ (by rfl) (by rfl) (fun j _ => ?_) (by rfl)
    have hs : ¬ ∃ p rest, s.client = .starting p rest ∧ j ∈ rest := by
      simp [hcl]
    simp only [Job.Pending, hs, false_or]
    constructor
    · intro h
      rcases h with ⟨p, rest, hp, hj⟩ | h
      · cases hp
        exact .inr hj
      · exact .inl h
    · intro h
      rcases h with h | h
      · exact .inr h
      · exact .inl ⟨_, _, rfl, h⟩
  case ended hcl _ _ _ =>
    exact .same (by rfl) (started_modify _ _) (hclient (by simp [hcl]) (by simp) fun _ => by rfl) (hflag (by rfl))
  case submitJob p j₀ rest hcl =>
    refine .same (by rfl) (by rfl) (fun j _ => ?_) (hflag (by rfl))
    have hjobs := @pending_submit n s { s with jobs := s.jobs.submit j₀, client := .starting p rest } _ hc j₀ (by rfl)
      (by rfl) (by rfl) j
    simp only [Job.Pending, hjobs, hcl]
    constructor
    · intro h
      rcases h with ⟨_, _, hp, hj⟩ | rfl | h
      · cases hp
        exact .inl ⟨_, _, rfl, List.mem_cons_of_mem _ hj⟩
      · exact .inl ⟨_, _, rfl, List.mem_cons_self⟩
      · exact .inr h
    · intro h
      rcases h with ⟨_, _, hp, hj⟩ | h
      · cases hp
        rcases List.mem_cons.1 hj with rfl | hj
        · exact .inr (.inl rfl)
        · exact .inl ⟨_, _, rfl, hj⟩
      · exact .inr (.inr h)
  case submitDoc node res hcl hres =>
    refine .same (by rfl) (by rfl) (fun j hj => ?_) (hflag (by rfl))
    have hjobs := @pending_submit n s ({ s with
        jobs := s.jobs.submit (.matchDoc node)
        submitted := s.submitted ++ [res.docId] }.reply (.code .success)) _ hc (.matchDoc node) (by rfl) (by rfl) (by rfl) j
    have hne : j ≠ .matchDoc node := by
      rintro rfl
      cases hj
    have hs : ¬ ∃ p rest, s.client = .starting p rest ∧ j ∈ rest := by
      simp [hcl]
    simp only [Job.Pending, hjobs, hs, hne, false_or]
    simp
  case cleared hcl hd =>
    exact .same (by rfl) (by rfl) (hclient (by simp [hcl]) (by simp) fun _ => by rfl)
      fun _ => .inr ⟨hd, by simp [hcl]⟩
  case matchDocument hcl =>
    refine .same (by rfl) (by rfl) (hclient (by simp [hcl]) ?_ fun _ => by rfl) (hflag (by rfl))
    dsimp only
    split <;> simp
  case count hcl _ =>
    refine .same (by rfl) (by rfl) (hclient ?_ (by simp) fun _ => by rfl) (hflag (by rfl))
    intro p rest hp
    rw [hcl] at hp
    cases hp
    rfl
  case badQuery hcl _ =>
    exact .same (by rfl) (by rfl) (hclient (by simp [hcl]) (by simp) fun _ => by rfl) (by simp [State.reply])
  case endQuery hcl | register hcl _ _ | endUnknown hcl _ _ | append hcl | parse hcl _ _ =>
    exact .same (by rfl) (by rfl) (hclient (by simp [hcl]) (by simp)
      (jobsBefore_client (by rfl) (by rfl) fun _ => by rfl)) (hflag (by rfl))
  case getNextAvailRes hcl _ | peekedNone hcl _ | peeked hcl _ | read hcl _ _ | dequeued hcl _ =>
    exact .same (by rfl) (by rfl) (hclient (by simp [hcl]) (by simp) fun _ => remaining_unlinked _ _ _ _) (hflag (by rfl))
  case clientQueue | workQueue | spurious =>
    exact .same (by rfl) (by rfl) (hsame (by rfl) fun _ => remaining_unlinked _ _ _ _) (hflag (by rfl))
  case start hj =>
    exact .same (by rfl) (by rfl) (hsame (by rfl) (jobsBefore_start (hc.idle_of_start hj) hj)) (hflag (by rfl))
  case finish hw hj =>
    exact .same (by rfl) (by rfl) (hsame (by rfl) (jobsBefore_finish hw hj)) (hflag (by rfl))
  case insertTree i c p u r index hw hj hins =>
    exact .insert (.addToTree p u r) ⟨c.height, c.height.2, hins⟩ (by rfl) ⟨i, List.mem_of_mem_head? hj⟩
      (pending_done (by simp only [State.jobsBefore, hw]; rfl) hj (by rfl) fun _ => by rfl) (by rfl)
  case insertTable i c p u hw hj =>
    exact .insert (.addToHashTable p u) (by rfl) (by rfl) ⟨i, List.mem_of_mem_head? hj⟩
      (pending_done (by simp only [State.jobsBefore, hw]; rfl) hj (by rfl) fun _ => by rfl) (by rfl)
  case beginDoc hw hj _ =>
    exact .same (by rfl) (by rfl) (hsame (by rfl) (jobsBefore_setWork (by simp only [State.jobsBefore, hw]; rfl))) (hflag (by rfl))
  case unlink i c node r docs hr hpc hd =>
    refine .same (by rfl) (by rfl) (fun j hj => ?_) (hflag (by rfl))
    obtain ⟨hw, hhead⟩ := docRun_some.1 hr
    have hne : j ≠ .matchDoc node := by
      rintro rfl
      cases hj
    have hqueue : s.jobsBefore .unlinked i = s.jobs.queue i := by simp only [State.jobsBefore, hw, remaining]; rfl
    have hdone := @pending_done n s ({ s with docs := docs }.setWork i .done) i _ hqueue hhead (by rfl) (fun _ => by rfl) j
    rw [hdone, or_iff_right hne]
  case move hr _ _ _ | moved hr _ _ =>
    exact .same (by rfl) (by rfl) (hsame (by rfl) fun k => (jobsBefore_run (docRun_some.1 hr).1 (by rfl) k).trans
      (remaining_unlinked _ _ _ _)) (hflag (by rfl))
  case submitMatch hr _ | waitMatch hr _ | startTask hr _ | readKeys hr _ _ | readExact hr _ _ | search hr _ _ _ |
      searched hr _ | added hr _ | finishTask hr _ _ | store hr _ _ _ _ | add hr _ _ _ =>
    exact .same (by rfl) (by rfl) (hsame (by rfl) (jobsBefore_run (docRun_some.1 hr).1 (by rfl))) (hflag (by rfl))

end Insertions

/-! ## What the indexes hold -/

/-- the words of the queries have lengths for which there are trees -/
def WordsFit (heap : List Query) : Prop :=
  ∀ q ∈ heap, ∀ u ∈ q.uniqueWords.toList, minWordLength ≤ u.length ∧ u.length ≤ maxWordLength

/-- the index holds words of queries, and all of them that are not pending -/
structure IndexOk {n : ℕ} (s : State n) : Prop where
  ok : s.index.Ok
  sound : ∀ j : Job, j.Inserted s.index → j.Proper s.heap
  complete : ∀ (p : ℕ) (q : Query), s.heap[p]? = some q → ∀ j ∈ insertJobs q.matchType p q.uniqueWords.toList,
    j.Pending s ∨ j.Inserted s.index

section Index

variable {n : ℕ} {s s' : State n} {a : Act n} {as : List (Act n)}

/-- the subscript of a word -/
theorem hammingTree_eq {u : Word} (h : minWordLength ≤ u.length) (h' : u.length ≤ maxWordLength) :
    hammingTree u = .hamming (u.length - minWordLength) := by
  have hmod : (u.length + (2 ^ 64 - minWordLength)) % 2 ^ 64 = u.length - minWordLength := by
    have h4 : minWordLength = 4 := rfl
    have h31 : maxWordLength = 31 := rfl
    omega
  rw [hammingTree, hmod]

theorem mem_hammingTree {u : Word} (h : minWordLength ≤ u.length) (h' : u.length ≤ maxWordLength) :
    u ∈ (hammingTree u).words := by
  rw [hammingTree_eq h h']
  exact (Nat.sub_add_cancel h).symm

/-- a job of a tree is for one of the words of the tree -/
theorem insertJobs_words {t : MatchType} {p q : ℕ} {ws : List Word} {u : Word} {r : TreeRef}
    (hws : ∀ u ∈ ws, minWordLength ≤ u.length ∧ u.length ≤ maxWordLength) (hj : .addToTree q u r ∈ insertJobs t p ws) :
    u ∈ r.words := by
  obtain ⟨w, hw, heq⟩ := List.mem_map.1 hj
  obtain ⟨hmin, hmax⟩ := hws w hw
  cases t with
  | exactMatch => cases heq
  | editDist =>
    cases heq
    exact hmax
  | hammingDist =>
    cases heq
    exact mem_hammingTree hmin hmax

theorem Job.Proper.words {heap : List Query} (hfit : WordsFit heap) {p : ℕ} {u : Word} {r : TreeRef}
    (h : (Job.addToTree p u r).Proper heap) : u ∈ r.words := by
  obtain ⟨p', q, hq, hj⟩ := h rfl
  exact insertJobs_words (hfit q (List.mem_of_getElem? hq)) hj

theorem Slot.job_inj {slot slot' : Slot} {u u' : Word} {p p' : ℕ} :
    slot.job u p = slot'.job u' p' ↔ slot = slot' ∧ u = u' ∧ p = p' := by
  cases slot <;> cases slot' <;> simp [Slot.job] <;> tauto

theorem inserted_job {ix : Index} {slot : Slot} {u : Word} {p : ℕ} :
    (slot.job u p).Inserted ix ↔ ix.Posts slot u p := by
  constructor
  · intro h
    obtain ⟨slot', u', p', heq, hpost⟩ := h
    obtain ⟨rfl, rfl, rfl⟩ := Slot.job_inj.1 heq
    exact hpost
  · intro h
    exact ⟨slot, u, p, rfl, h⟩

/-- an insertion posts its word, and nothing else -/
theorem Job.Makes.spec {j₀ : Job} {ix ix' : Index} (h : j₀.Makes ix ix') (hok : ix.Ok)
    (hwords : ∀ p u r, j₀ = .addToTree p u r → u ∈ r.words) :
    ix'.Ok ∧ ∀ j : Job, j.Inserted ix' ↔ j.Inserted ix ∨ j = j₀ := by
  suffices hspec : ix'.Ok ∧ ∃ slot u p, slot.job u p = j₀ ∧ ∀ slot' u' p', ix'.Posts slot' u' p' ↔
      ix.Posts slot' u' p' ∨ (slot' = slot ∧ u' = u ∧ p' = p) by
    obtain ⟨hok', slot, u, p, rfl, hposts⟩ := hspec
    refine ⟨hok', fun j => ?_⟩
    unfold Job.Inserted
    simp only [hposts]
    constructor
    · intro hj
      obtain ⟨slot', u', p', rfl, hold | ⟨rfl, rfl, rfl⟩⟩ := hj
      · exact .inl ⟨slot', u', p', rfl, hold⟩
      · exact .inr rfl
    · intro hj
      rcases hj with ⟨slot', u', p', rfl, hold⟩ | rfl
      · exact ⟨slot', u', p', rfl, .inl hold⟩
      · exact ⟨slot, u, p, rfl, .inr ⟨rfl, rfl, rfl⟩⟩
  cases j₀ with
  | addToTree p u r =>
    obtain ⟨height, hh, hins⟩ := h
    have ht : ∃ t, ix.tree r = some t := by
      obtain ⟨t, ht, -⟩ := Option.bind_eq_some_iff.1 hins
      exact ⟨t, ht⟩
    obtain ⟨t, ht⟩ := ht
    obtain ⟨ix₁, hins₁, hok₁, hposts⟩ := Index.addToTree_spec hok ht (hwords p u r rfl) p hh
    cases hins.symm.trans hins₁
    exact ⟨hok₁, .tree r, u, p, rfl, hposts⟩
  | addToHashTable p u =>
    cases h
    obtain ⟨hok₁, hposts⟩ := Index.addToHashTable_spec hok p u
    exact ⟨hok₁, .exact, u, p, rfl, hposts⟩
  | matchDoc node => exact h.elim

/-- the queries of a heap in which some have been ended -/
theorem started_getElem {heap heap' : List Query} (h : heap'.map Query.started = heap.map Query.started) {p : ℕ}
    {q' : Query} (hq' : heap'[p]? = some q') : ∃ q, heap[p]? = some q ∧ q.started = q'.started := by
  have hp := congrArg (fun l => l[p]?) h
  simp only [List.getElem?_map, hq', Option.map_some] at hp
  exact Option.map_eq_some_iff.1 hp.symm

theorem getElem?_snoc {heap : List Query} {q q' : Query} {p : ℕ} (h : (heap ++ [q])[p]? = some q') :
    heap[p]? = some q' ∨ (p = heap.length ∧ q' = q) := by
  rw [List.getElem?_append] at h
  split at h
  · exact .inl h
  · next hp =>
    obtain ⟨hlt, heq⟩ := List.getElem?_eq_some_iff.1 h
    simp only [List.length_singleton] at hlt
    simp only [List.getElem_singleton] at heq
    exact .inr ⟨by omega, heq.symm⟩

theorem Query.started_insertJobs {q q' : Query} (h : q.started = q'.started) (p : ℕ) :
    insertJobs q.matchType p q.uniqueWords.toList = insertJobs q'.matchType p q'.uniqueWords.toList := by
  have ht : q.started.matchType = q'.started.matchType := by rw [h]
  have hw : q.started.uniqueWords = q'.started.uniqueWords := by rw [h]
  exact congrArg₂ (fun t (ws : WordSet wordHash) => insertJobs t p ws.toList) ht hw

theorem InsertStep.indexOk (h : InsertStep s s') (hg : Grows s.heap s'.heap) (hj : ∀ i, ∀ j ∈ s.jobs.queue i, j.Proper s.heap)
    (hfit : WordsFit s.heap) (hs : IndexOk s) : IndexOk s' := by
  cases h with
  | same hindex hheap hpend hflag =>
    refine ⟨hindex ▸ hs.ok, fun j hins => (hs.sound j (hindex ▸ hins)).mono hg, fun p q' hq' j hjobs => ?_⟩
    obtain ⟨q, hq, hstarted⟩ := started_getElem hheap hq'
    rw [← Query.started_insertJobs hstarted] at hjobs
    rw [hindex, hpend j (insertJobs_node hjobs)]
    exact hs.complete p q hq j hjobs
  | query q hindex hheap hpend hflag =>
    refine ⟨hindex ▸ hs.ok, fun j hins => (hs.sound j (hindex ▸ hins)).mono hg, fun p q' hq' j hjobs => ?_⟩
    rw [hindex, hpend j (insertJobs_node hjobs)]
    rcases getElem?_snoc (hheap ▸ hq') with hold | ⟨rfl, rfl⟩
    · exact (hs.complete p q' hold j hjobs).imp_left .inl
    · exact .inl (.inr hjobs)
  | insert j₀ hmakes hheap hmem hpend hflag =>
    obtain ⟨i, hi⟩ := hmem
    have hproper := hj i j₀ hi
    obtain ⟨hok, hins⟩ := hmakes.spec hs.ok fun p u r hj₀ => Job.Proper.words hfit (hj₀ ▸ hproper)
    refine ⟨hok, fun j hj' => ?_, fun p q hq j hjobs => ?_⟩
    · rw [hheap]
      rcases (hins j).1 hj' with hold | rfl
      · exact hs.sound j hold
      · exact hproper
    · rw [hheap] at hq
      rcases hs.complete p q hq j hjobs with hp | hold
      · rcases (hpend j).1 hp with rfl | hp
        · exact .inr ((hins j).2 (.inr rfl))
        · exact .inl hp
      · exact .inr ((hins j).2 (.inl hold))

/-- without the flag no insertion is pending -/
def Settled {n : ℕ} (s : State n) : Prop :=
  s.queryHasStarted = false → ∀ j : Job, j.node = none → ¬ j.Pending s

theorem InsertStep.settled (h : InsertStep s s') (hs : Settled s) : Settled s' := by
  intro hflag' j hj hp
  cases h with
  | same hindex hheap hpend hflag =>
    rw [hpend j hj] at hp
    rcases hflag hflag' with hold | ⟨hdone, hclient⟩
    · exact hs hold j hj hp
    · rcases hp with ⟨p, rest, hc, -⟩ | ⟨i, hi⟩
      · exact hclient p rest hc
      · have hmem := jobsBefore_subset s _ i hi
        rw [hdone i] at hmem
        cases hmem
  | query q hindex hheap hpend hflag =>
    rw [hflag] at hflag'
    cases hflag'
  | insert j₀ hmakes hheap hmem hpend hflag =>
    exact hs (hflag ▸ hflag') j hj ((hpend j).2 (.inr hp))

theorem Heap.wordsFit (h : Heap as s.heap) (htext : ∀ a ∈ as, a.HasText) : WordsFit s.heap := by
  intro q hq u hu
  obtain ⟨p, hp⟩ := List.mem_iff_getElem?.1 hq
  obtain ⟨a, ha, hquery⟩ := h.get hp
  unfold Act.query at hquery
  split at hquery
  · next id str t dist =>
    obtain ⟨ws, hws, hstarted⟩ := Option.map_eq_some_iff.1 hquery
    have huniq : q.uniqueWords = WordSet.ofWords wordHash 5 ws := congrArg Query.uniqueWords hstarted.symm
    have hstr : Text str := htext _ ha
    rw [huniq, WordSet.mem_ofWords] at hu
    exact hstr.lengths u (tokens_subset hstr.nul hws hu)
  · cases hquery

variable [NeZero n]

theorem indexOk_init : IndexOk (State.init : State n) where
  ok := Index.ok_init
  sound j hj := by
    obtain ⟨slot, u, p, -, hpost⟩ := hj
    exact absurd hpost (Index.posts_init slot u p)
  complete p q hq := by cases hq

/-- **What the indexes hold**, in every reachable state -/
theorem indexOk (hr : run State.step State.init as = some s) (htext : ∀ a ∈ as, a.HasText) : IndexOk s := by
  refine run_induction (G := fun _ _ _ => True) (I := fun as s => (∀ a ∈ as, a.HasText) → IndexOk s)
    (fun _ => indexOk_init) (fun bs t a t' hbs _ ih hs htext => ?_) (meets_true _ _ _) hr htext
  have h := records hbs
  have hbefore : ∀ a ∈ bs, a.HasText := fun a ha => htext a (List.mem_append_left _ ha)
  have hm := step_move hs
  exact (hm.insertStep h.control).indexOk hm.grows h.jobs.proper (h.heap.wordsFit hbefore) (ih hbefore)

theorem settled (hr : run State.step State.init as = some s) : Settled s := by
  refine run_induction (G := fun _ _ _ => True) (I := fun _ s => Settled s) ?_ (fun bs t a t' hbs _ ih hs => ?_)
    (meets_true _ _ _) hr
  · intro _ j _ hp
    rcases hp with ⟨p, rest, hc, -⟩ | ⟨i, hi⟩
    · cases hc
    · cases hi
  · exact ((step_move hs).insertStep (control hbs)).settled ih

end Index

/-! ## The partition by length -/

section Partition

variable {n : ℕ} {s : State n} {as : List (Act n)}

/-- `StartQuery` or `match_doc` has computed subscript `k` for word `w`: the job is still to be submitted, or in a
queue -/
def State.Uses (s : State n) (k : ℕ) (w : Word) : Prop :=
  (∃ q p rest, s.client = .starting p rest ∧ .addToTree q w (.hamming k) ∈ rest) ∨
  (∃ q i, .addToTree q w (.hamming k) ∈ s.jobs.queue i) ∨
  ∃ i r t, s.work i = .matching r ∧ r.Holds (.matchQueries (.hamming k) w t)

/-- the tokenizer delivers no word of `MAX_WORD_LENGTH` characters from this text -/
def Shorter (str : List UInt8) : Prop := ∀ ws ∈ tokens str, ∀ w ∈ ws, w.length ≠ maxWordLength

instance (str : List UInt8) : Decidable (Shorter str) :=
  inferInstanceAs (Decidable (∀ ws ∈ tokens str, ∀ w ∈ ws, w.length ≠ maxWordLength))

/-- the words for which a subscript is computed are shorter than `MAX_WORD_LENGTH` -/
def Act.Shorter : Act n → Prop
  | .startQuery _ str (some .hammingDist) _ => Core.Shorter str
  | .matchDocument _ docStr => Core.Shorter docStr
  | _ => True

instance : (a : Act n) → Decidable a.Shorter
  | .startQuery _ str (some .hammingDist) _ => inferInstanceAs (Decidable (Core.Shorter str))
  | .matchDocument _ docStr => inferInstanceAs (Decidable (Core.Shorter docStr))
  | .startQuery _ _ none _ | .startQuery _ _ (some .exactMatch) _ | .startQuery _ _ (some .editDist) _ | .endQuery _
  | .getNextAvailRes | .client _ | .start _ | .work _ _ | .finish _ | .startTask _ _ | .task _ _ | .finishTask _ _
  | .spurious _ => inferInstanceAs (Decidable True)

theorem hammingTree_short {w : Word} {k : ℕ} (hmin : minWordLength ≤ w.length) (hmax : w.length ≤ maxWordLength)
    (hne : w.length ≠ maxWordLength) (h : hammingTree w = .hamming k) : k < hammingBkTrees ∧ w.length = k + minWordLength := by
  rw [hammingTree_eq hmin hmax] at h
  have hk := TreeRef.hamming.inj h
  have hsize : hammingBkTrees = maxWordLength - minWordLength := rfl
  omega

/-- the subscript of a job that inserts a word -/
theorem Job.Proper.subscript (hheap : Heap as s.heap) (htext : ∀ a ∈ as, a.HasText) (hshort : ∀ a ∈ as, a.Shorter)
    {q k : ℕ} {w : Word} (h : (Job.addToTree q w (.hamming k)).Proper s.heap) :
    k < hammingBkTrees ∧ w.length = k + minWordLength := by
  obtain ⟨p, query, hq, hjob⟩ := h rfl
  obtain ⟨u, hu, heq⟩ := List.mem_map.1 hjob
  obtain ⟨a, ha, hquery⟩ := hheap.get hq
  unfold Act.query at hquery
  split at hquery
  · next id str t dist =>
    obtain ⟨ws, hws, hstarted⟩ := Option.map_eq_some_iff.1 hquery
    have htype : query.matchType = t := congrArg Query.matchType hstarted.symm
    have huniq : query.uniqueWords = WordSet.ofWords wordHash 5 ws := congrArg Query.uniqueWords hstarted.symm
    rw [huniq, WordSet.mem_ofWords] at hu
    rw [htype] at heq
    cases t with
    | exactMatch | editDist => cases heq
    | hammingDist =>
      obtain ⟨-, rfl, htree⟩ := Job.addToTree.inj heq
      have hstr : Text str := htext _ ha
      obtain ⟨hmin, hmax⟩ := hstr.lengths u (tokens_subset hstr.nul hws hu)
      exact hammingTree_short hmin hmax (hshort _ ha ws hws u hu) htree
  · cases hquery

theorem mem_matchJobs {ws : List Word} {r : TreeRef} {w : Word} {t : MatchType}
    (h : .matchQueries r w t ∈ matchJobs ws) : w ∈ ws ∧ ((r = .edit ∧ t = .editDist) ∨ (r = hammingTree w ∧ t = .hammingDist)) := by
  obtain ⟨u, hu, hjob⟩ := List.mem_flatMap.1 h
  simp only [List.mem_cons, MatchJob.matchQueries.injEq, reduceCtorEq, List.not_mem_nil, or_false] at hjob
  rcases hjob with ⟨rfl, rfl, rfl⟩ | ⟨rfl, rfl, rfl⟩
  · exact ⟨hu, .inl ⟨rfl, rfl⟩⟩
  · exact ⟨hu, .inr ⟨rfl, rfl⟩⟩

/-- the record of a running `match_doc` -/
theorem Records.docRun (h : Records as s) {i : Fin n} {r : DocRun} (hw : s.work i = .matching r) :
    ∃ node res, s.docRun i = some (node, r) ∧ s.docs.get node = some res ∧ res.Parsed ∧
      .matchDocument res.docId res.docStr ∈ as ∧ ∀ job, r.Holds job → job ∈ matchJobs res.words.toList := by
  have hi := h.control i
  rw [hw] at hi
  obtain ⟨-, -, node, rest, hq⟩ := hi
  have hhead : (s.jobs.queue i).head? = some (.matchDoc node) := by rw [hq]; rfl
  have hrun := docRun_some.2 ⟨hw, hhead⟩
  have hmem := mem_jobsBefore_run hrun
  obtain ⟨res, hres⟩ := h.nodes.live hmem
  refine ⟨node, res, hrun, hres, h.texts.parsed node res hres fun hc => ?_, h.texts.called node res hres, ?_⟩
  · exact h.nodes.client_ne hmem (hc ▸ List.mem_singleton_self node) rfl
  · exact h.jobs.sub i r node res hw hhead hres

/-- the words of a running `match_doc` are those of a text -/
theorem Records.word (htext : ∀ a ∈ as, a.HasText) {res : DocumentResults} (hp : res.Parsed)
    (hcall : .matchDocument res.docId res.docStr ∈ as) {w : Word} (hw : w ∈ res.words.toList) :
    ∃ ws, tokens res.docStr = some ws ∧ w ∈ ws ∧ minWordLength ≤ w.length ∧ w.length ≤ maxWordLength := by
  obtain ⟨ws, hws, hmem⟩ := hp
  have hstr : Text res.docStr := htext _ hcall
  have hin := (hmem w).1 hw
  exact ⟨ws, hws, hin, hstr.lengths w (tokens_subset hstr.nul hws hin)⟩

theorem Records.subscript (h : Records as s) (htext : ∀ a ∈ as, a.HasText) (hshort : ∀ a ∈ as, a.Shorter) {k : ℕ}
    {w : Word} (hu : s.Uses k w) : k < hammingBkTrees ∧ w.length = k + minWordLength := by
  rcases hu with ⟨q, p, rest, hc, hj⟩ | ⟨q, i, hj⟩ | ⟨i, r, t, hw, hj⟩
  · obtain ⟨-, query, before, hq, hjobs⟩ := h.starting p rest hc
    exact Job.Proper.subscript h.heap htext hshort fun _ => ⟨p, query, hq, hjobs ▸ List.mem_append_right _ hj⟩
  · exact (h.jobs.proper i _ hj).subscript h.heap htext hshort
  · obtain ⟨node, res, -, -, hparsed, hcall, hjobs⟩ := h.docRun hw
    obtain ⟨hmem, ⟨hr, -⟩ | ⟨hr, -⟩⟩ := mem_matchJobs (hjobs _ hj)
    · cases hr
    · obtain ⟨ws, hws, hin, hmin, hmax⟩ := Records.word htext hparsed hcall hmem
      exact hammingTree_short hmin hmax (hshort _ hcall ws hws w hin) hr.symm

variable [NeZero n]

/-- **The partition of the Hamming index.** In every run whose texts have words of the lengths of `core.h`, none of
`MAX_WORD_LENGTH` in a Hamming query or a document: every subscript that is computed is in the array, the words of tree
`k` have length `k + MIN_WORD_LENGTH`, and no distance that an insertion or a `match_doc` job asks for is of words of
different lengths, so both are defined. -/
theorem hamming_partition (hr : run State.step State.init as = some s) (htext : ∀ a ∈ as, a.HasText)
    (hshort : ∀ a ∈ as, a.Shorter) :
    (∀ k w, s.Uses k w → k < hammingBkTrees) ∧
    (∀ k t, s.index.tree (.hamming k) = some t → ∀ e ∈ t.nodes.map BkNode.data, e.word.length = k + minWordLength) ∧
    ∀ k w, s.Uses k w → ∃ t, s.index.tree (.hamming k) = some t ∧
      (∀ e ∈ t.nodes.map BkNode.data, (hammingDistance e.word w).isSome ∧ (hammingDistance w e.word).isSome) ∧
      (∀ q height, height < bkTreeSkipListLevels → (s.index.addToTree q w (.hamming k) height).isSome) ∧
      ∀ key < 2 ^ 30, (s.index.search s.heap (.hamming k) key w).isSome := by
  have h := records hr
  have hix := indexOk hr htext
  have hstored : ∀ k t, s.index.tree (.hamming k) = some t → ∀ e ∈ t.nodes.map BkNode.data,
      e.word.length = k + minWordLength := by
    intro k t ht e he
    obtain ⟨kids, hinv⟩ := hix.ok _ _ ht
    obtain ⟨i, hi⟩ := List.mem_iff_getElem?.1 he
    obtain ⟨node, hnode, rfl⟩ := Option.map_eq_some_iff.1 ((List.getElem?_map ..).symm.trans hi)
    exact hinv.words i _ (by rw [BkTree.wordOf, hnode, Option.map_some])
  refine ⟨fun k w hu => (h.subscript htext hshort hu).1, hstored, fun k w hu => ?_⟩
  obtain ⟨hk, hlen⟩ := h.subscript htext hshort hu
  have ht : s.index.tree (.hamming k) = some (s.index.hamming k) := if_pos hk
  refine ⟨_, ht, fun e he => ?_, fun q height hh => ?_, fun key hkey => ?_⟩
  · have he' := hstored k _ ht e he
    rw [hammingDistance_eq (he'.trans hlen.symm), hammingDistance_eq (hlen.trans he'.symm)]
    exact ⟨rfl, rfl⟩
  · obtain ⟨ix', hins, -⟩ := Index.addToTree_spec hix.ok ht hlen q hh
    rw [hins]
    rfl
  · obtain ⟨found, hfound, -⟩ := Index.search_spec hix.ok ht hlen hkey s.heap
    rw [hfound]
    rfl

/-- a Hamming query of a word of four letters, inserted, and a document of one word of five -/
def shortWords : List (Act 1) :=
  let i : Fin 1 := ⟨0, Nat.one_pos⟩
  let choice : Choice 1 := ⟨⟨0, bkTreeSkipListLevels_pos⟩, fun _ => true, []⟩
  let client : Act 1 := .client fun _ => true
  [.startQuery 1 [97, 98, 99, 100] (some .hammingDist) 1, client, client, client, .start i, .work i choice, .finish i,
    .matchDocument 7 [97, 98, 99, 100, 101]] ++ List.replicate 4 client ++ [.start i, .work i choice]

theorem hamming_partition_short : ∃ s, run State.step State.init shortWords = some s ∧
    s.Uses 1 [97, 98, 99, 100, 101] ∧ 1 < hammingBkTrees := by
  have hobs : (run State.step State.init shortWords).map (fun s => (s.docRun 0).map fun p => p.2.pc) =
      some (some (.submitting (matchJobs [[97, 98, 99, 100, 101]]))) := by decide +kernel
  obtain ⟨s, hs, hrun⟩ := Option.map_eq_some_iff.1 hobs
  obtain ⟨⟨node, r⟩, hr, hpc⟩ := Option.map_eq_some_iff.1 hrun
  have huses : s.Uses 1 [97, 98, 99, 100, 101] :=
    .inr (.inr ⟨0, r, .hammingDist, (docRun_some.1 hr).1, .inl ⟨_, hpc, by decide⟩⟩)
  exact ⟨s, hs, huses, (hamming_partition hs (by decide +kernel) (by decide +kernel)).1 1 _ huses⟩

/-- a word of `MAX_WORD_LENGTH` letters: its subscript is the number of trees -/
theorem subscript_out_of_bounds : ¬ ∀ (as : List (Act 1)) s, run State.step State.init as = some s →
    (∀ a ∈ as, a.HasText) → ∀ k w, s.Uses k w → k < hammingBkTrees := by
  intro hclaim
  have hobs : (run State.step State.init [(.startQuery 1 (List.replicate 31 97) (some .hammingDist) 0 : Act 1)]).map
      State.client = some (.starting 0 [.addToTree 0 (List.replicate 31 97) (.hamming 27)]) := by decide +kernel
  obtain ⟨s, hs, hclient⟩ := Option.map_eq_some_iff.1 hobs
  have huses : s.Uses 27 (List.replicate 31 97) := .inl ⟨0, 0, _, hclient, List.mem_singleton_self _⟩
  exact absurd (hclaim _ s hs (by decide +kernel) 27 _ huses) (by decide)

end Partition

end K23Search.Core
