/-
What the engine keeps of the calls: a query for each `StartQuery`, a record for each document on its way, with the words
that the tokenizer delivers, and jobs that are those of the queries and of the documents' words.

Result:
- `records`: this holds in every reachable state.
-/
import K23Search.Core.Nodes
import K23Search.Core.History

namespace K23Search.Core

open K23Search.Lib K23Search.Text

/-! ## Queries -/

/-- the query that a call of `StartQuery` makes -/
def Act.query {n : ℕ} : Act n → Option Query
  | .startQuery id str (some t) k => (tokens str).map fun ws => ⟨id, true, t, k, str, WordSet.ofWords wordHash 5 ws⟩
  | _ => none

def queriesOf {n : ℕ} (as : List (Act n)) : List Query := as.filterMap Act.query

/-- the query as it was when it was started -/
def Query.started (q : Query) : Query := { q with active := true }

/-- the heap has the queries started, in order; some of them are not active any more -/
def Heap {n : ℕ} (as : List (Act n)) (heap : List Query) : Prop := heap.map Query.started = queriesOf as

section Heap

variable {n : ℕ} {s s' : State n} {a : Act n} {as : List (Act n)}

theorem queriesOf_snoc (as : List (Act n)) (a : Act n) : queriesOf (as ++ [a]) = queriesOf as ++ a.query.toList := by
  rw [queriesOf, List.filterMap_append, queriesOf]
  cases h : a.query <;> simp [h]

/-- ending a query changes only `active` -/
theorem started_modify (heap : List Query) (p : ℕ) :
    (heap.modify p fun q => { q with active := false }).map Query.started = heap.map Query.started := by
  refine List.ext_getElem? fun i => ?_
  rw [List.getElem?_map, List.getElem?_modify, List.getElem?_map]
  cases heap[i]? with
  | none => rfl
  | some q => by_cases hp : p = i <;> simp [hp, Query.started]

theorem Heap.get (h : Heap as s.heap) {p : ℕ} {q : Query} (hq : s.heap[p]? = some q) :
    ∃ a ∈ as, a.query = some q.started := by
  have hmem : q.started ∈ queriesOf as := by
    rw [← h]
    exact List.mem_map_of_mem (List.mem_of_getElem? hq)
  exact List.mem_filterMap.1 hmem

variable [NeZero n]

theorem Move.heap (hm : Move s a s') (h : Heap as s.heap) : Heap (as ++ [a]) s'.heap := by
  unfold Heap at h ⊢
  rw [queriesOf_snoc, ← h]
  cases hm
  case startQuery hw =>
    simp only [Act.query, hw, Option.map_some, Option.toList_some, List.map_append]
    rfl
  case ended =>
    exact (started_modify _ _).trans (List.append_nil _).symm
  all_goals exact (List.append_nil _).symm

end Heap

/-! ## Documents -/

/-- the record of a document, with the words of its text -/
def DocumentResults.Parsed (res : DocumentResults) : Prop :=
  ∃ ws, tokens res.docStr = some ws ∧ ∀ w, w ∈ res.words.toList ↔ w ∈ ws

/-- the records are those of documents that were passed to `MatchDocument`, and have the words of their texts from
`parsing` on -/
structure Texts {n : ℕ} (as : List (Act n)) (docs : DList DocumentResults) (c : ClientPc) : Prop where
  client : ∀ d str, (c = .clearing d str ∨ c = .appending d str) → .matchDocument d str ∈ as
  called : ∀ node res, docs.get node = some res → .matchDocument res.docId res.docStr ∈ as
  parsed : ∀ node res, docs.get node = some res → c ≠ .parsing node → res.Parsed
  parsing : ∀ node res, docs.get node = some res → c = .parsing node → res.words.toList = []

section Texts

variable {n : ℕ} {s s' : State n} {a : Act n} {as : List (Act n)} {docs docs' : DList DocumentResults} {c c' : ClientPc}

theorem Texts.mono (h : Texts as docs c) (a : Act n) : Texts (as ++ [a]) docs c :=
  ⟨fun d str hc => List.mem_append_left _ (h.client d str hc),
    fun node res hres => List.mem_append_left _ (h.called node res hres), h.parsed, h.parsing⟩

/-- the records keep their texts and words -/
theorem Texts.frame (h : Texts as docs c) (hd : ∀ node res, docs'.get node = some res → ∃ res₀, docs.get node = some res₀ ∧
    res.docId = res₀.docId ∧ res.docStr = res₀.docStr ∧ res.words = res₀.words) : Texts as docs' c where
  client := h.client
  called node res hres := by
    obtain ⟨res₀, hres₀, hid, hstr, -⟩ := hd node res hres
    rw [hid, hstr]
    exact h.called node res₀ hres₀
  parsed node res hres hc := by
    obtain ⟨res₀, hres₀, -, hstr, hwords⟩ := hd node res hres
    unfold DocumentResults.Parsed
    rw [hstr, hwords]
    exact h.parsed node res₀ hres₀ hc
  parsing node res hres hc := by
    obtain ⟨res₀, hres₀, -, -, hwords⟩ := hd node res hres
    rw [hwords]
    exact h.parsing node res₀ hres₀ hc

/-- the client goes on outside `MatchDocument` -/
theorem Texts.goto (h : Texts as docs c) (hold : ∀ node, c ≠ .parsing node) (hc : ∀ d str, c' ≠ .clearing d str)
    (ha : ∀ d str, c' ≠ .appending d str) (hp : ∀ node, c' ≠ .parsing node) : Texts as docs c' where
  client d str hcl := (hcl.elim (hc d str) (ha d str)).elim
  called := h.called
  parsed node res hres _ := h.parsed node res hres (hold node)
  parsing node _ _ hcl := absurd hcl (hp node)

theorem get_modify_same {f : DocumentResults → DocumentResults} (docs : DList DocumentResults) (a : ℕ)
    (hf : ∀ res, (f res).docId = res.docId ∧ (f res).docStr = res.docStr ∧ (f res).words = res.words) (node : ℕ)
    (res : DocumentResults) (hres : (docs.modify a f).get node = some res) : ∃ res₀, docs.get node = some res₀ ∧
      res.docId = res₀.docId ∧ res.docStr = res₀.docStr ∧ res.words = res₀.words := by
  obtain ⟨res₀, hres₀, heq⟩ := DList.modify_keeps (fun res => (res.docId, res.docStr, res.words))
    (fun res => by obtain ⟨hid, hstr, hwords⟩ := hf res; simp only [hid, hstr, hwords]) hres
  simp only [Prod.mk.injEq] at heq
  exact ⟨res₀, hres₀, heq⟩

variable [NeZero n]

theorem Move.texts (hm : Move s a s') (h : Texts as s.docs s.client) : Texts (as ++ [a]) s'.docs s'.client := by
  have h := h.mono a
  cases hm
  case badQuery hcl _ | startQuery hcl _ | endQuery hcl | getNextAvailRes hcl _ | submitJob hcl | count hcl _ |
      register hcl _ _ | endUnknown hcl _ _ | ended hcl _ _ _ | submitDoc hcl _ | peekedNone hcl _ | peeked hcl _ |
      read hcl _ _ | dequeued hcl _ =>
    rw [hcl] at h
    exact h.goto nofun nofun nofun nofun
  case matchDocument d str hcl =>
    rw [hcl] at h
    refine ⟨fun d' str' hc => ?_, h.called, fun node res hres _ => h.parsed node res hres nofun, fun node res hres hc => ?_⟩
    · have hds : d' = d ∧ str' = str := by
        dsimp only at hc
        split at hc <;> rcases hc with hc | hc <;> cases hc <;> exact ⟨rfl, rfl⟩
      rw [hds.1, hds.2]
      exact List.mem_append_right _ (List.mem_singleton_self _)
    · dsimp only at hc
      split at hc <;> cases hc
  case cleared hcl _ =>
    rw [hcl] at h
    exact ⟨fun d str hc => h.client d str (.inl (by rcases hc with hc | hc <;> cases hc; rfl)), h.called,
      fun node res hres _ => h.parsed node res hres nofun, fun _ _ _ => nofun⟩
  case append d str hcl =>
    rw [hcl] at h
    constructor
    case client => exact fun d str hc => hc.elim nofun nofun
    case called =>
      intro node res hres
      rcases DList.append_cases hres with ⟨-, rfl⟩ | ⟨-, hold⟩
      · exact h.client d str (.inr rfl)
      · exact h.called node res hold
    case parsed =>
      intro node res hres hc
      rcases DList.append_cases hres with ⟨rfl, -⟩ | ⟨-, hold⟩
      · exact absurd rfl hc
      · exact h.parsed node res hold nofun
    case parsing =>
      intro node res hres hc
      cases hc
      rcases DList.append_cases hres with ⟨-, rfl⟩ | ⟨hne, -⟩
      · exact WordSet.toList_empty 10
      · exact absurd rfl hne
  case parse node res words hcl hres hw =>
    rw [hcl] at h
    constructor
    case client => exact fun d str hc => hc.elim nofun nofun
    case called =>
      intro node' res' hres'
      rcases DList.modify_cases hres' with ⟨rfl, res, hres, rfl⟩ | ⟨-, hold⟩
      · exact h.called _ res hres
      · exact h.called node' res' hold
    case parsed =>
      intro node' res' hres' _
      rcases DList.modify_cases hres' with ⟨rfl, res₀, hres₀, rfl⟩ | ⟨hne, hold⟩
      · cases hres.symm.trans hres₀
        refine ⟨words, hw, fun w => ?_⟩
        rw [WordSet.mem_foldl_insert, h.parsing _ res hres rfl]
        simp
      · exact h.parsed node' res' hold fun hc => hne (ClientPc.parsing.inj hc).symm
    case parsing => exact fun _ _ _ => nofun
  case store | add =>
    exact h.frame (get_modify_same _ _ fun _ => ⟨by rfl, by rfl, by rfl⟩)
  case unlink hr hpc hd =>
    exact h.frame fun node res hres => ⟨res, DList.get_of_remove hd hres, rfl, rfl, rfl⟩
  all_goals exact h

end Texts

/-! ## Jobs -/

/-- an insertion is that of a word of its query -/
def Job.Proper (heap : List Query) (j : Job) : Prop :=
  j.node = none → ∃ (p : ℕ) (q : Query), heap[p]? = some q ∧ j ∈ insertJobs q.matchType p q.uniqueWords.toList

/-- the jobs that a `match_doc` has submitted or will submit -/
def DocRun.Holds (r : DocRun) (job : MatchJob) : Prop :=
  (∃ rest, r.pc = .submitting rest ∧ job ∈ rest) ∨ ∃ j, job ∈ r.sub.queue j

/-- they are those of the words of its document -/
def SubOk (docs : DList DocumentResults) (queue : List Job) (w : Work) : Prop :=
  ∀ r node res, w = .matching r → queue.head? = some (.matchDoc node) → docs.get node = some res →
    ∀ job, r.Holds job → job ∈ matchJobs res.words.toList

structure JobsOk {n : ℕ} (s : State n) : Prop where
  proper : ∀ i, ∀ j ∈ s.jobs.queue i, j.Proper s.heap
  sub : ∀ i, SubOk s.docs (s.jobs.queue i) (s.work i)

section Jobs

variable {n : ℕ} {s s' : State n} {a : Act n}

theorem Job.Proper.mono {heap heap' : List Query} {j : Job} (h : j.Proper heap) (hg : Grows heap heap') :
    j.Proper heap' := by
  intro hnode
  obtain ⟨p, q, hq, hj⟩ := h hnode
  obtain ⟨b, hb⟩ := hg p q hq
  exact ⟨p, _, hb, hj⟩

theorem SubOk.mono {docs docs' : DList DocumentResults} {queue queue' : List Job} {w : Work} (h : SubOk docs queue w)
    (hq : ∀ r, w = .matching r → queue'.head? = queue.head?)
    (hd : ∀ r node res, w = .matching r → queue.head? = some (.matchDoc node) → docs'.get node = some res →
      ∃ res₀, docs.get node = some res₀ ∧ res.words = res₀.words) : SubOk docs' queue' w := by
  intro r node res hw hj hres job hjob
  rw [hq r hw] at hj
  obtain ⟨res₀, hres₀, hwords⟩ := hd r node res hw hj hres
  rw [hwords]
  exact h r node res₀ hw hj hres₀ job hjob

/-- a running `match_doc` goes on with its jobs -/
theorem SubOk.run {docs : DList DocumentResults} {queue : List Job} {w : Work} {r r' : DocRun} (h : SubOk docs queue w)
    (hw : w = .matching r) (hr : ∀ job, r'.Holds job → r.Holds job) : SubOk docs queue (.matching r') := by
  intro r₀ node res hr₀ hj hres job hjob
  cases hr₀
  exact h r node res hw hj hres job (hr job hjob)

theorem DocRun.holds_submit {r : DocRun} {job : MatchJob} {rest : List MatchJob} (hpc : r.pc = .submitting (job :: rest))
    (job' : MatchJob) (h : DocRun.Holds { r with pc := .submitting rest, sub := r.sub.submit job } job') :
    r.Holds job' := by
  rcases h with ⟨rest', hrest', hmem⟩ | hmem
  · cases hrest'
    exact .inl ⟨_, hpc, List.mem_cons_of_mem _ hmem⟩
  · rcases Jobs.mem_submit.1 hmem with hmem | rfl
    · exact .inr hmem
    · exact .inl ⟨_, hpc, List.mem_cons_self⟩

theorem DocRun.holds_queue {r r' : DocRun} (hpc : ∀ rest, r'.pc ≠ .submitting rest ∨ r'.pc = r.pc)
    (hq : ∀ j, r'.sub.queue j ⊆ r.sub.queue j) (job : MatchJob) (h : r'.Holds job) : r.Holds job := by
  rcases h with ⟨rest, hrest, hmem⟩ | ⟨j, hmem⟩
  · exact .inl ⟨rest, ((hpc rest).resolve_left fun hne => hne hrest) ▸ hrest, hmem⟩
  · exact .inr ⟨j, hq j hmem⟩

/-- a step of worker `i` -/
theorem sub_setWork (h : ∀ k, SubOk s.docs (s.jobs.queue k) (s.work k)) {docs : DList DocumentResults} {i : Fin n}
    {w : Work} (hd : ∀ k r node res, k ≠ i → s.work k = .matching r → (s.jobs.queue k).head? = some (.matchDoc node) →
      docs.get node = some res → ∃ res₀, s.docs.get node = some res₀ ∧ res.words = res₀.words)
    (hi : SubOk docs (s.jobs.queue i) w) (k : Fin n) : SubOk docs (s.jobs.queue k) (Function.update s.work i w k) := by
  by_cases hk : k = i
  · subst hk
    rwa [Function.update_self]
  · rw [Function.update_of_ne hk]
    exact (h k).mono (fun _ _ => rfl) fun r node res => hd k r node res hk

variable [NeZero n]

theorem submit_running (hc : Control s.jobs s.work) (j : Job) {k : Fin n} {r : DocRun} (hr : s.work k = .matching r) :
    ((s.jobs.submit j).queue k).head? = (s.jobs.queue k).head? := by
  rcases Jobs.submit_queue s.jobs j k with ⟨-, heq⟩ | ⟨-, heq⟩
  · rw [heq]
  · have hk := hc k
    rw [hr] at hk
    obtain ⟨-, -, node, rest, hq⟩ := hk
    rw [heq, hq]
    rfl

theorem Move.jobsOk (hm : Move s a s') (hc : Control s.jobs s.work) (hst : Starting s) (hn : Nodes s) (h : JobsOk s) :
    JobsOk s' := by
  have hkeep : ∀ i, ∀ j ∈ s.jobs.queue i, j.Proper s'.heap := fun i j hj => (h.proper i j hj).mono hm.grows
  have hsame : ∀ (i : Fin n) w, SubOk s.docs (s.jobs.queue i) w →
      ∀ k, SubOk s.docs (s.jobs.queue k) (Function.update s.work i w k) :=
    fun i w hi => sub_setWork h.sub (fun _ _ _ res _ _ _ hres => ⟨res, hres, rfl⟩) hi
  cases hm
  case submitJob p j rest hcl =>
    refine ⟨fun i j' hj' => ?_, fun i => (h.sub i).mono (fun r hr => submit_running hc j hr) fun _ _ res _ _ hres =>
      ⟨res, hres, rfl⟩⟩
    rcases Jobs.mem_submit.1 ⟨i, hj'⟩ with ⟨k, hk⟩ | rfl
    · exact h.proper k j' hk
    · obtain ⟨-, q, before, hq, hjobs⟩ := hst p _ hcl
      exact fun _ => ⟨p, q, hq, hjobs ▸ List.mem_append_right _ List.mem_cons_self⟩
  case submitDoc node res hcl hres =>
    refine ⟨fun i j' hj' => ?_, fun i => (h.sub i).mono (fun r hr => submit_running hc _ hr) fun _ _ res _ _ hres =>
      ⟨res, hres, rfl⟩⟩
    rcases Jobs.mem_submit.1 ⟨i, hj'⟩ with ⟨k, hk⟩ | rfl
    · exact h.proper k j' hk
    · exact nofun
  case start i jobs hj =>
    obtain ⟨-, -, rfl⟩ := Jobs.start_some hj
    exact ⟨hkeep, hsame i .called nofun⟩
  case finish i jobs hw hj =>
    have hqueue := Jobs.finish_subset hj
    obtain ⟨-, rfl⟩ := Jobs.finish_some hj
    refine ⟨fun k j hj => hkeep k j (hqueue k hj), fun k => ?_⟩
    change SubOk s.docs (Function.update s.jobs.queue i _ k) (Function.update s.work i .idle k)
    by_cases hk : k = i
    · subst hk
      rw [Function.update_self, Function.update_self]
      exact nofun
    · rw [Function.update_of_ne hk, Function.update_of_ne hk]
      exact h.sub k
  case append =>
    refine ⟨hkeep, fun k => (h.sub k).mono (fun _ _ => rfl) fun r node res hw hj hres => ⟨res, ?_, rfl⟩⟩
    obtain ⟨res₀, hres₀⟩ := hn.live (mem_jobsBefore_run (docRun_some.2 ⟨hw, hj⟩))
    exact ((DList.append_cases hres).resolve_left fun h => Nat.ne_of_lt (DList.lt_fresh_of_get hres₀) h.1).2
  case parse node res words hcl hres _ =>
    refine ⟨hkeep, fun k => (h.sub k).mono (fun _ _ => rfl) fun r node' res' hw hj hres' => ⟨res', ?_, rfl⟩⟩
    have hne := hn.client_ne (mem_jobsBefore_run (docRun_some.2 ⟨hw, hj⟩)) (by rw [hcl]; exact List.mem_cons_self)
    exact ((DList.modify_cases hres').resolve_left fun h => hne h.1.symm).2
  case insertTree i _ _ _ _ _ _ _ _ | insertTable i _ _ _ _ _ => exact ⟨hkeep, hsame i .done nofun⟩
  case unlink i c node r docs hr hpc hd =>
    exact ⟨hkeep, sub_setWork h.sub (fun k r' node' res _ _ _ hres => ⟨res, DList.get_of_remove hd hres, rfl⟩) nofun⟩
  case beginDoc i c node res hw hj hres =>
    refine ⟨hkeep, hsame i _ ?_⟩
    intro r node' res' hr hj' hres' job hjob
    cases hr
    cases hj.symm.trans hj'
    cases hres.symm.trans hres'
    rcases hjob with ⟨rest, hrest, hmem⟩ | ⟨j, hmem⟩
    · cases hrest
      exact hmem
    · cases hmem
  case submitMatch hr hpc =>
    exact ⟨hkeep, hsame _ _ ((h.sub _).run (docRun_some.1 hr).1 (DocRun.holds_submit hpc))⟩
  case waitMatch hr _ =>
    exact ⟨hkeep, hsame _ _ ((h.sub _).run (docRun_some.1 hr).1
      (DocRun.holds_queue (fun _ => .inl nofun) fun _ => List.Subset.refl _))⟩
  case store hr _ _ _ _ =>
    refine ⟨hkeep, sub_setWork h.sub (fun _ _ _ _ _ _ _ => DList.modify_keeps DocumentResults.words fun _ => by rfl) ?_⟩
    refine SubOk.run ?_ (docRun_some.1 hr).1 (DocRun.holds_queue (fun _ => .inl nofun) fun _ => List.Subset.refl _)
    exact (h.sub _).mono (fun _ _ => rfl) fun _ _ _ _ _ => DList.modify_keeps DocumentResults.words fun _ => by rfl
  case add hr _ _ _ =>
    refine ⟨hkeep, sub_setWork h.sub (fun _ _ _ _ _ _ _ => DList.modify_keeps DocumentResults.words fun _ => by rfl) ?_⟩
    refine SubOk.run ?_ (docRun_some.1 hr).1 fun _ => id
    exact (h.sub _).mono (fun _ _ => rfl) fun _ _ _ _ _ => DList.modify_keeps DocumentResults.words fun _ => by rfl
  case move hr _ _ _ | moved hr _ _ =>
    exact ⟨hkeep, hsame _ _ ((h.sub _).run (docRun_some.1 hr).1
      (DocRun.holds_queue (fun _ => .inl nofun) fun _ => List.Subset.refl _))⟩
  case startTask hr hs =>
    obtain ⟨-, -, rfl⟩ := Jobs.start_some hs
    exact ⟨hkeep, hsame _ _ ((h.sub _).run (docRun_some.1 hr).1 fun _ => id)⟩
  case readKeys hr _ _ | readExact hr _ _ | search hr _ _ _ | searched hr _ | added hr _ =>
    exact ⟨hkeep, hsame _ _ ((h.sub _).run (docRun_some.1 hr).1 fun _ => id)⟩
  case finishTask i j node r sub hr _ hs =>
    exact ⟨hkeep, hsame _ _ ((h.sub _).run (docRun_some.1 hr).1
      (DocRun.holds_queue (fun _ => .inr rfl) (Jobs.finish_subset hs)))⟩
  all_goals exact ⟨hkeep, h.sub⟩

end Jobs

/-! ## Every reachable state -/

structure Records {n : ℕ} (as : List (Act n)) (s : State n) : Prop where
  control : Control s.jobs s.work
  starting : Starting s
  nodes : Nodes s
  heap : Heap as s.heap
  texts : Texts as s.docs s.client
  jobs : JobsOk s

section Records

variable {n : ℕ} [NeZero n] {s s' : State n} {a : Act n} {as : List (Act n)}

theorem Records.step (h : Records as s) (hm : Move s a s') : Records (as ++ [a]) s' :=
  ⟨hm.control h.control, hm.starting h.starting, hm.nodes h.control h.starting h.nodes, hm.heap h.heap,
    hm.texts h.texts, hm.jobsOk h.control h.starting h.nodes h.jobs⟩

theorem records_init : Records [] (State.init : State n) where
  control := control_init
  starting := starting_init
  nodes := nodes_init
  heap := rfl
  texts := ⟨fun _ _ hc => hc.elim nofun nofun, fun _ _ => nofun, fun _ _ => nofun, fun _ _ => nofun⟩
  jobs := ⟨fun _ _ => nofun, fun _ _ _ _ => nofun⟩

/-- **What the engine keeps of the calls**, in every reachable state -/
theorem records (hr : run State.step State.init as = some s) : Records as s :=
  run_induction (G := fun _ _ _ => True) records_init (fun _ _ _ _ _ _ h hs => h.step (step_move hs))
    (meets_true _ _ _) hr

end Records

end K23Search.Core
