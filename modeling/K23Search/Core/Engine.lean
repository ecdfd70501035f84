/-
The engine (core.cpp): the calls of `core.h` made by one client thread, the `n` workers of `job_scheduler()` and, inside
each running `match_doc`, the three workers of its own scheduler. An action is a call of the client, a step of the
client inside its call, or a step of a worker; all orders of them are runs.

The schedulers are `Jobs`, which `Jobs.refines` justifies; `finished_results` is the concurrent queue with all its
steps. The following are one step each: an insertion into an index (it runs under the index's lock), the reading of the
thresholds of `thresholdCounters`, one search of an index with its loop over the payloads found, each
`add_query_to_doc_results`, and the operations on `docs`. The source reads thresholds and indexes without a lock; under
the discipline of `Races` they do not change while a document is matched, so that it makes no difference in how many
steps they are read.

Three limits of the source are left to other modules: the counters of `thresholdCounters` are without bound here (`int`
in `Counters`), so is the stack of a search (its position is an `int` in `BkTreeStack`), and no allocation of
`MatchDocument` throws (`Process` has the exception of a table that is too long, `ProcessRuns` the runs without it).

Queries are named by their position in `heap` (they are never freed), documents by the address of their node in `docs`,
which is what the jobs hold. `submitted` and `stored` record the documents whose `match_doc` job has been submitted and
the answers that `match_doc` has stored. A step that is undefined in the source is `none`.

Results:
- `step_move`: everything a step can do, as a relation (`Move`).
-/
import K23Search.Concurrency.Jobs
import K23Search.Core.Results
import Mathlib.Data.Fintype.Option

namespace K23Search.Core

open K23Search.Lib K23Search.Text

/-! ## Model -/

inductive ErrorCode where
  | success
  | noAvailRes
  | fail
deriving DecidableEq, Repr

structure DistanceThresholdCounters where
  hamming : ℤ
  edit : ℤ
deriving DecidableEq, Repr

abbrev ThresholdCounters := Table uintHash DistanceThresholdCounters

/-- the words that `parse_string(s, ' ', f)` gives to `f`, of a NUL-terminated string -/
def tokens (s : List UInt8) : Option (List Word) :=
  (parseString (s ++ [0]) 0 32).map fun views => views.map (StringView.chars (s ++ [0]))

inductive Job where
  | addToTree (q : ℕ) (str : Word) (tree : TreeRef)
  | addToHashTable (q : ℕ) (str : Word)
  | matchDoc (res : ℕ)
deriving DecidableEq, Repr

/-- the jobs that `StartQuery` submits -/
def insertJobs (matchType : MatchType) (q : ℕ) (words : List Word) : List Job :=
  words.map fun str =>
    match matchType with
    | .editDist => .addToTree q str .edit
    | .hammingDist => .addToTree q str (hammingTree str)
    | .exactMatch => .addToHashTable q str

inductive MatchJob where
  | matchQueries (index : TreeRef) (w : Word) (matchType : MatchType)
  | matchExact (w : Word)
deriving DecidableEq, Repr

/-- the jobs that `match_doc` submits -/
def matchJobs (words : List Word) : List MatchJob :=
  words.flatMap fun w => [.matchQueries .edit w .editDist, .matchQueries (hammingTree w) w .hammingDist, .matchExact w]

/-- where a worker of `match_doc`'s scheduler is in its job -/
inductive Task where
  | idle
  | called
  /-- at the loop over the thresholds, with those still to be searched -/
  | searching (keys : List ℕ)
  /-- in the loop over the payloads, with the calls of `add_query_to_doc_results` still to be made -/
  | adding (calls : List (ℕ × Word)) (keys : List ℕ)
  | done
deriving DecidableEq, Repr

inductive DocPc where
  /-- submitting these jobs -/
  | submitting (rest : List MatchJob)
  /-- in `s.wait_all_finish()` -/
  | waiting
  /-- about to call `fin_res->enqueue` -/
  | moving
  | enqueuing
  /-- about to remove the node from `docs` -/
  | unlinking
deriving DecidableEq, Repr

/-- a running `match_doc` -/
structure DocRun where
  pc : DocPc
  sub : Jobs 3 MatchJob
  tasks : Fin 3 → Task

/-- where a worker of `job_scheduler()` is in its job -/
inductive Work where
  | idle
  | called
  | matching (r : DocRun)
  | done

/-- what `GetNextAvailRes` writes to its arguments -/
structure Result where
  docId : ℕ
  numRes : ℕ
  queryIds : List ℕ
deriving DecidableEq, Repr

inductive Reply where
  | code (c : ErrorCode)
  /-- `EC_SUCCESS` of `GetNextAvailRes` -/
  | result (r : Result)
deriving DecidableEq, Repr

inductive ClientPc where
  | idle
  /-- in `StartQuery`, submitting these jobs -/
  | starting (q : ℕ) (rest : List Job)
  /-- in `StartQuery`, about to register the query -/
  | registering (q : ℕ)
  /-- in `wait_all_finish` of `EndQuery` -/
  | ending (id : ℕ)
  /-- in `wait_all_finish` of `MatchDocument` -/
  | clearing (docId : ℕ) (docStr : List UInt8)
  | appending (docId : ℕ) (docStr : List UInt8)
  | parsing (node : ℕ)
  | submitting (node : ℕ)
  /-- in `finished_results.peek()` -/
  | peeking
  | peeked (p : ℕ)
  /-- in `finished_results.dequeue(nullptr)` -/
  | dequeuing (r : Result)
deriving DecidableEq, Repr

structure State (n : ℕ) where
  queries : Table uintHash ℕ
  heap : List Query
  index : Index
  thresholdCounters : ThresholdCounters
  queryHasStarted : Bool
  activeQueries : ℕ
  jobs : Jobs n Job
  work : Fin n → Work
  docs : DList DocumentResults
  finishedResults : CQueue (Option (Fin n)) DocumentResults
  client : ClientPc
  replies : List Reply
  submitted : List ℕ
  stored : List (ℕ × List ℕ)

/-- what a step of a worker leaves open: the height of a new node, the threads that a signal wakes, the order of
`qsort`'s result (its comparison function is not an order) -/
structure Choice (n : ℕ) where
  height : Fin bkTreeSkipListLevels
  woken : Option (Fin n) → Bool
  order : List ℕ

inductive Act (n : ℕ) where
  /-- `none`: a `match_type` that is none of the three -/
  | startQuery (id : ℕ) (str : List UInt8) (matchType : Option MatchType) (matchDist : ℕ)
  | endQuery (id : ℕ)
  | matchDocument (docId : ℕ) (docStr : List UInt8)
  | getNextAvailRes
  | client (woken : Option (Fin n) → Bool)
  | start (i : Fin n)
  | work (i : Fin n) (c : Choice n)
  | finish (i : Fin n)
  | startTask (i : Fin n) (j : Fin 3)
  | task (i : Fin n) (j : Fin 3)
  | finishTask (i : Fin n) (j : Fin 3)
  | spurious (t : Option (Fin n))

/-- `edit++`, `hamming++` -/
def countQuery (counters : ThresholdCounters) (q : Query) : ThresholdCounters :=
  match q.matchType with
  | .exactMatch => counters
  | .editDist =>
    match counters.get q.matchDist with
    | none => counters.insert q.matchDist ⟨0, 1⟩
    | some _ => counters.modify q.matchDist fun c => { c with edit := c.edit + 1 }
  | .hammingDist =>
    match counters.get q.matchDist with
    | none => counters.insert q.matchDist ⟨1, 0⟩
    | some _ => counters.modify q.matchDist fun c => { c with hamming := c.hamming + 1 }

/-- `edit--`, `hamming--` -/
def uncountQuery (counters : ThresholdCounters) (q : Query) : ThresholdCounters :=
  match q.matchType with
  | .exactMatch => counters
  | .editDist => counters.modify q.matchDist fun c => { c with edit := c.edit - 1 }
  | .hammingDist => counters.modify q.matchDist fun c => { c with hamming := c.hamming - 1 }

/-- the thresholds that the loop of `match_queries` does not skip -/
def searchKeys (counters : ThresholdCounters) (matchType : MatchType) : List ℕ :=
  (counters.entries.filter fun e =>
    match matchType with
    | .editDist => e.2.edit ≠ 0
    | .hammingDist => e.2.hamming ≠ 0
    | .exactMatch => true).map Prod.fst

namespace State

variable {n : ℕ}

def setWork (s : State n) (i : Fin n) (w : Work) : State n := { s with work := Function.update s.work i w }

def reply (s : State n) (r : Reply) : State n := { s with client := .idle, replies := s.replies ++ [r] }

@[simp] theorem reply_client (s : State n) (r : Reply) : (s.reply r).client = .idle := rfl

/-! ### The client -/

/-- `StartQuery` up to the submission of its jobs -/
def startQuery (s : State n) (id : ℕ) (str : List UInt8) (matchType : Option MatchType) (matchDist : ℕ) :
    Option (State n) :=
  (tokens str).map fun words =>
    let uniqueWords := WordSet.ofWords wordHash 5 words
    let s := { s with activeQueries := (s.activeQueries + 1) % 2 ^ 64, queryHasStarted := true }
    match matchType with
    | none => s.reply (.code .fail)
    | some t =>
      { s with
        heap := s.heap ++ [⟨id, true, t, matchDist, str, uniqueWords⟩]
        client := .starting s.heap.length (insertJobs t s.heap.length uniqueWords.toList) }

/-- `queries.insert`, at the end of `StartQuery`; a query with an id that is present would be freed here, with jobs and
index entries that point to it -/
def register (s : State n) (q : ℕ) : Option (State n) :=
  (s.heap[q]?).bind fun query =>
    match s.queries.get query.id with
    | none => some ({ s with queries := s.queries.insert query.id q }.reply (.code .success))
    | some _ => none

/-- `EndQuery` behind its `wait_all_finish` -/
def endQuery (s : State n) (id : ℕ) : Option (State n) :=
  match s.queries.get id with
  | none => some (s.reply (.code .fail))
  | some q => (s.heap[q]?).map fun query =>
    { s with
      thresholdCounters := uncountQuery s.thresholdCounters query
      heap := s.heap.modify q fun query => { query with active := false } }.reply (.code .success)

/-- a step of the client inside its call -/
def clientStep [NeZero n] (s : State n) (woken : Option (Fin n) → Bool) : Option (State n) :=
  match s.client with
  | .idle => none
  | .starting q (j :: rest) => some { s with jobs := s.jobs.submit j, client := .starting q rest }
  | .starting q [] => (s.heap[q]?).map fun query =>
    { s with thresholdCounters := countQuery s.thresholdCounters query, client := .registering q }
  | .registering q => s.register q
  | .ending id => if s.jobs.Done then s.endQuery id else none
  | .clearing docId docStr =>
    if s.jobs.Done then some { s with queryHasStarted := false, client := .appending docId docStr } else none
  | .appending docId docStr => some { s with
    docs := s.docs.append (DocumentResults.make docId (s.activeQueries / 2) docStr)
    client := .parsing s.docs.fresh }
  | .parsing node => (s.docs.get node).bind fun res => (tokens res.docStr).map fun words =>
    { s with
      docs := s.docs.modify node fun res => { res with words := words.foldl WordSet.insert res.words }
      client := .submitting node }
  | .submitting node => (s.docs.get node).map fun res =>
    { s with jobs := s.jobs.submit (.matchDoc node), submitted := s.submitted ++ [res.docId] }.reply (.code .success)
  | .peeking =>
    match s.finishedResults.take none with
    | some (.ptr none, q) => some ({ s with finishedResults := q }.reply (.code .noAvailRes))
    | some (.ptr (some p), q) => some { s with finishedResults := q, client := .peeked p }
    | some _ => none
    | none => (s.finishedResults.step none woken).map fun q => { s with finishedResults := q }
  | .peeked p => (s.finishedResults.q.get p).bind fun res =>
    (s.finishedResults.call none .dequeue).map fun q =>
      { s with finishedResults := q, client := .dequeuing ⟨res.docId, res.answerLen, res.answer⟩ }
  | .dequeuing r =>
    match s.finishedResults.take none with
    | some (_, q) => some ({ s with finishedResults := q }.reply (.result r))
    | none => (s.finishedResults.step none woken).map fun q => { s with finishedResults := q }

/-! ### The workers -/

/-- a step of `match_doc` -/
def matchDoc (s : State n) (i : Fin n) (node : ℕ) (r : DocRun) (c : Choice n) : Option (State n) :=
  match r.pc with
  | .submitting (j :: rest) => some (s.setWork i (.matching { r with pc := .submitting rest, sub := r.sub.submit j }))
  | .submitting [] => some (s.setWork i (.matching { r with pc := .waiting }))
  | .waiting =>
    if r.sub.Done then (s.docs.get node).bind fun res =>
      if c.order.Perm (answers s.heap res.results) then
        some ({ s with
          docs := s.docs.modify node fun res => { res with answerLen := c.order.length, answer := c.order }
          stored := s.stored ++ [(res.docId, c.order)] }.setWork i (.matching { r with pc := .moving }))
      else none
    else none
  | .moving => (s.docs.get node).bind fun res => (s.finishedResults.call (some i) (.enqueue res)).map fun q =>
    { s with finishedResults := q }.setWork i (.matching { r with pc := .enqueuing })
  | .enqueuing =>
    match s.finishedResults.take (some i) with
    | some (_, q) => some ({ s with finishedResults := q }.setWork i (.matching { r with pc := .unlinking }))
    | none => (s.finishedResults.step (some i) c.woken).map fun q => { s with finishedResults := q }
  | .unlinking => (s.docs.remove node).map fun docs => { s with docs := docs }.setWork i .done

/-- a step of worker `i` in the job at the head of its queue -/
def workStep (s : State n) (i : Fin n) (c : Choice n) : Option (State n) :=
  match s.work i, (s.jobs.queue i).head? with
  | .called, some (.addToTree q str tree) => (s.index.addToTree q str tree c.height).map fun index =>
    { s with index := index }.setWork i .done
  | .called, some (.addToHashTable q str) => some ({ s with index := s.index.addToHashTable q str }.setWork i .done)
  | .called, some (.matchDoc node) => (s.docs.get node).map fun res =>
    s.setWork i (.matching ⟨.submitting (matchJobs res.words.toList), Jobs.init, fun _ => .idle⟩)
  | .matching r, some (.matchDoc node) => s.matchDoc i node r c
  | _, _ => none

def setTask (s : State n) (i : Fin n) (r : DocRun) (j : Fin 3) (t : Task) : State n :=
  s.setWork i (.matching { r with tasks := Function.update r.tasks j t })

/-- a step of worker `j` of the scheduler of the `match_doc` at `node` -/
def taskStep (s : State n) (i : Fin n) (node : ℕ) (r : DocRun) (j : Fin 3) : Option (State n) :=
  match r.tasks j, (r.sub.queue j).head? with
  | .called, some (.matchQueries _ _ matchType) =>
    some (s.setTask i r j (.searching (searchKeys s.thresholdCounters matchType)))
  | .called, some (.matchExact w) => some (s.setTask i r j (.adding (s.index.searchExact s.heap w) []))
  | .searching (key :: keys), some (.matchQueries index w _) => (s.index.search s.heap index key w).map fun calls =>
    s.setTask i r j (.adding calls keys)
  | .searching [], some _ => some (s.setTask i r j .done)
  | .adding ((q, word) :: calls) keys, some _ => (s.docs.get node).bind fun res =>
    (addQueryToDocResults s.heap res.results q word).map fun results =>
      { s with docs := s.docs.modify node fun res => { res with results := results } }.setTask i r j (.adding calls keys)
  | .adding [] keys, some _ => some (s.setTask i r j (.searching keys))
  | _, _ => none

/-- the running `match_doc` of worker `i`, with its node -/
def docRun (s : State n) (i : Fin n) : Option (ℕ × DocRun) :=
  match s.work i, (s.jobs.queue i).head? with
  | .matching r, some (.matchDoc node) => some (node, r)
  | _, _ => none

def init [NeZero n] : State n where
  queries := Table.ofCapacity uintHash 4096
  heap := []
  index := Index.init
  thresholdCounters := Table.ofCapacity uintHash 32
  queryHasStarted := false
  activeQueries := 0
  jobs := Jobs.init
  work := fun _ => .idle
  docs := DList.empty
  finishedResults := CQueue.empty
  client := .idle
  replies := []
  submitted := []
  stored := []

def step [NeZero n] (s : State n) : Act n → Option (State n)
  | .startQuery id str matchType matchDist =>
    match s.client with
    | .idle => s.startQuery id str matchType matchDist
    | _ => none
  | .endQuery id =>
    match s.client with
    | .idle => some { s with activeQueries := (s.activeQueries + (2 ^ 64 - 1)) % 2 ^ 64, client := .ending id }
    | _ => none
  | .matchDocument docId docStr =>
    match s.client with
    | .idle => some { s with client := if s.queryHasStarted then .clearing docId docStr else .appending docId docStr }
    | _ => none
  | .getNextAvailRes =>
    match s.client with
    | .idle => (s.finishedResults.call none .peek).map fun q => { s with finishedResults := q, client := .peeking }
    | _ => none
  | .client woken => s.clientStep woken
  | .start i => (s.jobs.start i).map fun jobs => { s with jobs := jobs }.setWork i .called
  | .work i c => s.workStep i c
  | .finish i =>
    match s.work i with
    | .done => (s.jobs.finish i).map fun jobs => { s with jobs := jobs }.setWork i .idle
    | _ => none
  | .startTask i j => (s.docRun i).bind fun (_, r) => (r.sub.start j).map fun sub =>
    s.setTask i { r with sub := sub } j .called
  | .task i j => (s.docRun i).bind fun (node, r) => s.taskStep i node r j
  | .finishTask i j => (s.docRun i).bind fun (_, r) =>
    match r.tasks j with
    | .done => (r.sub.finish j).map fun sub => s.setTask i { r with sub := sub } j .idle
    | _ => none
  | .spurious t => (s.finishedResults.spurious t).map fun q => { s with finishedResults := q }

end State

/-! ## What a step can do -/

section Moves

variable {n : ℕ} [NeZero n]

/-- the steps, one case each -/
inductive Move (s : State n) : Act n → State n → Prop where
  | badQuery {id str matchDist words} (hc : s.client = .idle) (hw : tokens str = some words) :
      Move s (.startQuery id str none matchDist)
        ({ s with activeQueries := (s.activeQueries + 1) % 2 ^ 64, queryHasStarted := true }.reply (.code .fail))
  | startQuery {id str t matchDist words} (hc : s.client = .idle) (hw : tokens str = some words) :
      Move s (.startQuery id str (some t) matchDist)
        { s with
          activeQueries := (s.activeQueries + 1) % 2 ^ 64
          queryHasStarted := true
          heap := s.heap ++ [⟨id, true, t, matchDist, str, WordSet.ofWords wordHash 5 words⟩]
          client := .starting s.heap.length (insertJobs t s.heap.length (WordSet.ofWords wordHash 5 words).toList) }
  | endQuery {id} (hc : s.client = .idle) :
      Move s (.endQuery id)
        { s with activeQueries := (s.activeQueries + (2 ^ 64 - 1)) % 2 ^ 64, client := .ending id }
  | matchDocument {docId docStr} (hc : s.client = .idle) :
      Move s (.matchDocument docId docStr)
        { s with client := if s.queryHasStarted then .clearing docId docStr else .appending docId docStr }
  | getNextAvailRes {q} (hc : s.client = .idle) (hq : s.finishedResults.call none .peek = some q) :
      Move s .getNextAvailRes { s with finishedResults := q, client := .peeking }
  | submitJob {woken q j rest} (hc : s.client = .starting q (j :: rest)) :
      Move s (.client woken) { s with jobs := s.jobs.submit j, client := .starting q rest }
  | count {woken q query} (hc : s.client = .starting q []) (hq : s.heap[q]? = some query) :
      Move s (.client woken)
        { s with thresholdCounters := countQuery s.thresholdCounters query, client := .registering q }
  | register {woken q query} (hc : s.client = .registering q) (hq : s.heap[q]? = some query)
      (hnew : s.queries.get query.id = none) :
      Move s (.client woken) ({ s with queries := s.queries.insert query.id q }.reply (.code .success))
  | endUnknown {woken id} (hc : s.client = .ending id) (hd : s.jobs.Done) (hget : s.queries.get id = none) :
      Move s (.client woken) (s.reply (.code .fail))
  | ended {woken id q query} (hc : s.client = .ending id) (hd : s.jobs.Done) (hget : s.queries.get id = some q)
      (hq : s.heap[q]? = some query) :
      Move s (.client woken) ({ s with
        thresholdCounters := uncountQuery s.thresholdCounters query
        heap := s.heap.modify q fun query => { query with active := false } }.reply (.code .success))
  | cleared {woken docId docStr} (hc : s.client = .clearing docId docStr) (hd : s.jobs.Done) :
      Move s (.client woken) { s with queryHasStarted := false, client := .appending docId docStr }
  | append {woken docId docStr} (hc : s.client = .appending docId docStr) :
      Move s (.client woken) { s with
        docs := s.docs.append (DocumentResults.make docId (s.activeQueries / 2) docStr)
        client := .parsing s.docs.fresh }
  | parse {woken node res words} (hc : s.client = .parsing node) (hres : s.docs.get node = some res)
      (hw : tokens res.docStr = some words) :
      Move s (.client woken) { s with
        docs := s.docs.modify node fun res => { res with words := words.foldl WordSet.insert res.words }
        client := .submitting node }
  | submitDoc {woken node res} (hc : s.client = .submitting node) (hres : s.docs.get node = some res) :
      Move s (.client woken) ({ s with
        jobs := s.jobs.submit (.matchDoc node)
        submitted := s.submitted ++ [res.docId] }.reply (.code .success))
  | peekedNone {woken q} (hc : s.client = .peeking) (hq : s.finishedResults.take none = some (.ptr none, q)) :
      Move s (.client woken) ({ s with finishedResults := q }.reply (.code .noAvailRes))
  | peeked {woken p q} (hc : s.client = .peeking) (hq : s.finishedResults.take none = some (.ptr (some p), q)) :
      Move s (.client woken) { s with finishedResults := q, client := .peeked p }
  | read {woken p res q} (hc : s.client = .peeked p) (hres : s.finishedResults.q.get p = some res)
      (hq : s.finishedResults.call none .dequeue = some q) :
      Move s (.client woken)
        { s with finishedResults := q, client := .dequeuing ⟨res.docId, res.answerLen, res.answer⟩ }
  | dequeued {woken r x q} (hc : s.client = .dequeuing r) (hq : s.finishedResults.take none = some (x, q)) :
      Move s (.client woken) ({ s with finishedResults := q }.reply (.result r))
  | clientQueue {woken q} (hc : s.client = .peeking ∨ ∃ r, s.client = .dequeuing r)
      (hq : s.finishedResults.step none woken = some q) : Move s (.client woken) { s with finishedResults := q }
  | start {i jobs} (hj : s.jobs.start i = some jobs) : Move s (.start i) ({ s with jobs := jobs }.setWork i .called)
  | insertTree {i c q str tree index} (hw : s.work i = .called)
      (hj : (s.jobs.queue i).head? = some (.addToTree q str tree))
      (hins : s.index.addToTree q str tree c.height = some index) :
      Move s (.work i c) ({ s with index := index }.setWork i .done)
  | insertTable {i c q str} (hw : s.work i = .called) (hj : (s.jobs.queue i).head? = some (.addToHashTable q str)) :
      Move s (.work i c) ({ s with index := s.index.addToHashTable q str }.setWork i .done)
  | beginDoc {i c node res} (hw : s.work i = .called) (hj : (s.jobs.queue i).head? = some (.matchDoc node))
      (hres : s.docs.get node = some res) :
      Move s (.work i c)
        (s.setWork i (.matching ⟨.submitting (matchJobs res.words.toList), Jobs.init, fun _ => .idle⟩))
  | submitMatch {i c node r j rest} (hr : s.docRun i = some (node, r)) (hpc : r.pc = .submitting (j :: rest)) :
      Move s (.work i c) (s.setWork i (.matching { r with pc := .submitting rest, sub := r.sub.submit j }))
  | waitMatch {i c node r} (hr : s.docRun i = some (node, r)) (hpc : r.pc = .submitting []) :
      Move s (.work i c) (s.setWork i (.matching { r with pc := .waiting }))
  | store {i c node r res} (hr : s.docRun i = some (node, r)) (hpc : r.pc = .waiting) (hd : r.sub.Done)
      (hres : s.docs.get node = some res) (ho : c.order.Perm (answers s.heap res.results)) :
      Move s (.work i c) ({ s with
        docs := s.docs.modify node fun res => { res with answerLen := c.order.length, answer := c.order }
        stored := s.stored ++ [(res.docId, c.order)] }.setWork i (.matching { r with pc := .moving }))
  | move {i c node r res q} (hr : s.docRun i = some (node, r)) (hpc : r.pc = .moving)
      (hres : s.docs.get node = some res) (hq : s.finishedResults.call (some i) (.enqueue res) = some q) :
      Move s (.work i c) ({ s with finishedResults := q }.setWork i (.matching { r with pc := .enqueuing }))
  | workQueue {i c node r q} (hr : s.docRun i = some (node, r)) (hpc : r.pc = .enqueuing)
      (hq : s.finishedResults.step (some i) c.woken = some q) : Move s (.work i c) { s with finishedResults := q }
  | moved {i c node r x q} (hr : s.docRun i = some (node, r)) (hpc : r.pc = .enqueuing)
      (hq : s.finishedResults.take (some i) = some (x, q)) :
      Move s (.work i c) ({ s with finishedResults := q }.setWork i (.matching { r with pc := .unlinking }))
  | unlink {i c node r docs} (hr : s.docRun i = some (node, r)) (hpc : r.pc = .unlinking)
      (hd : s.docs.remove node = some docs) : Move s (.work i c) ({ s with docs := docs }.setWork i .done)
  | finish {i jobs} (hw : s.work i = .done) (hj : s.jobs.finish i = some jobs) :
      Move s (.finish i) ({ s with jobs := jobs }.setWork i .idle)
  | startTask {i j node r sub} (hr : s.docRun i = some (node, r)) (hs : r.sub.start j = some sub) :
      Move s (.startTask i j) (s.setTask i { r with sub := sub } j .called)
  | readKeys {i j node r ix w t} (hr : s.docRun i = some (node, r)) (ht : r.tasks j = .called)
      (hj : (r.sub.queue j).head? = some (.matchQueries ix w t)) :
      Move s (.task i j) (s.setTask i r j (.searching (searchKeys s.thresholdCounters t)))
  | readExact {i j node r w} (hr : s.docRun i = some (node, r)) (ht : r.tasks j = .called)
      (hj : (r.sub.queue j).head? = some (.matchExact w)) :
      Move s (.task i j) (s.setTask i r j (.adding (s.index.searchExact s.heap w) []))
  | search {i j node r ix w t key keys calls} (hr : s.docRun i = some (node, r))
      (ht : r.tasks j = .searching (key :: keys)) (hj : (r.sub.queue j).head? = some (.matchQueries ix w t))
      (hs : s.index.search s.heap ix key w = some calls) :
      Move s (.task i j) (s.setTask i r j (.adding calls keys))
  | searched {i j node r} (hr : s.docRun i = some (node, r)) (ht : r.tasks j = .searching []) :
      Move s (.task i j) (s.setTask i r j .done)
  | add {i j node r q word calls keys res results} (hr : s.docRun i = some (node, r))
      (ht : r.tasks j = .adding ((q, word) :: calls) keys) (hres : s.docs.get node = some res)
      (ha : addQueryToDocResults s.heap res.results q word = some results) :
      Move s (.task i j) ({ s with
        docs := s.docs.modify node fun res => { res with results := results } }.setTask i r j (.adding calls keys))
  | added {i j node r keys} (hr : s.docRun i = some (node, r)) (ht : r.tasks j = .adding [] keys) :
      Move s (.task i j) (s.setTask i r j (.searching keys))
  | finishTask {i j node r sub} (hr : s.docRun i = some (node, r)) (ht : r.tasks j = .done)
      (hs : r.sub.finish j = some sub) : Move s (.finishTask i j) (s.setTask i { r with sub := sub } j .idle)
  | spurious {t q} (hq : s.finishedResults.spurious t = some q) : Move s (.spurious t) { s with finishedResults := q }

variable {s s' : State n}

theorem clientStep_move {woken : Option (Fin n) → Bool} (h : s.clientStep woken = some s') :
    Move s (.client woken) s' := by
  unfold State.clientStep at h
  split at h
  · cases h
  · next hc => cases h; exact .submitJob hc
  · next hc =>
    obtain ⟨query, hq, rfl⟩ := Option.map_eq_some_iff.1 h
    exact .count hc hq
  · next hc =>
    obtain ⟨query, hq, h⟩ := Option.bind_eq_some_iff.1 h
    split at h
    · next hnew => cases h; exact .register hc hq hnew
    · cases h
  · next hc =>
    split at h
    · next hd =>
      unfold State.endQuery at h
      split at h
      · next hget => cases h; exact .endUnknown hc hd hget
      · next hget =>
        obtain ⟨query, hq, rfl⟩ := Option.map_eq_some_iff.1 h
        exact .ended hc hd hget hq
    · cases h
  · next hc =>
    split at h
    · next hd => cases h; exact .cleared hc hd
    · cases h
  · next hc => cases h; exact .append hc
  · next hc =>
    obtain ⟨res, hres, h⟩ := Option.bind_eq_some_iff.1 h
    obtain ⟨words, hw, rfl⟩ := Option.map_eq_some_iff.1 h
    exact .parse hc hres hw
  · next hc =>
    obtain ⟨res, hres, rfl⟩ := Option.map_eq_some_iff.1 h
    exact .submitDoc hc hres
  · next hc =>
    split at h
    · next hq => cases h; exact .peekedNone hc hq
    · next hq => cases h; exact .peeked hc hq
    · cases h
    · obtain ⟨q, hq, rfl⟩ := Option.map_eq_some_iff.1 h
      exact .clientQueue (.inl hc) hq
  · next hc =>
    obtain ⟨res, hres, h⟩ := Option.bind_eq_some_iff.1 h
    obtain ⟨q, hq, rfl⟩ := Option.map_eq_some_iff.1 h
    exact .read hc hres hq
  · next hc =>
    split at h
    · next hq => cases h; exact .dequeued hc hq
    · obtain ⟨q, hq, rfl⟩ := Option.map_eq_some_iff.1 h
      exact .clientQueue (.inr ⟨_, hc⟩) hq

theorem matchDoc_move {i : Fin n} {node : ℕ} {r : DocRun} {c : Choice n} (hr : s.docRun i = some (node, r))
    (h : s.matchDoc i node r c = some s') : Move s (.work i c) s' := by
  unfold State.matchDoc at h
  split at h
  · next hpc => cases h; exact .submitMatch hr hpc
  · next hpc => cases h; exact .waitMatch hr hpc
  · next hpc =>
    split at h
    · next hd =>
      obtain ⟨res, hres, h⟩ := Option.bind_eq_some_iff.1 h
      split at h
      · next ho => cases h; exact .store hr hpc hd hres ho
      · cases h
    · cases h
  · next hpc =>
    obtain ⟨res, hres, h⟩ := Option.bind_eq_some_iff.1 h
    obtain ⟨q, hq, rfl⟩ := Option.map_eq_some_iff.1 h
    exact .move hr hpc hres hq
  · next hpc =>
    split at h
    · next hq => cases h; exact .moved hr hpc hq
    · obtain ⟨q, hq, rfl⟩ := Option.map_eq_some_iff.1 h
      exact .workQueue hr hpc hq
  · next hpc =>
    obtain ⟨docs, hd, rfl⟩ := Option.map_eq_some_iff.1 h
    exact .unlink hr hpc hd

theorem taskStep_move {i : Fin n} {node : ℕ} {r : DocRun} {j : Fin 3} (hr : s.docRun i = some (node, r))
    (h : s.taskStep i node r j = some s') : Move s (.task i j) s' := by
  unfold State.taskStep at h
  split at h
  · next ht hj => cases h; exact .readKeys hr ht hj
  · next ht hj => cases h; exact .readExact hr ht hj
  · next ht hj =>
    obtain ⟨calls, hs, rfl⟩ := Option.map_eq_some_iff.1 h
    exact .search hr ht hj hs
  · next ht hj => cases h; exact .searched hr ht
  · next ht hj =>
    obtain ⟨res, hres, h⟩ := Option.bind_eq_some_iff.1 h
    obtain ⟨results, ha, rfl⟩ := Option.map_eq_some_iff.1 h
    exact .add hr ht hres ha
  · next ht hj => cases h; exact .added hr ht
  · cases h

/-- **What a step can do.** Every step is one of the moves. -/
theorem step_move {a : Act n} (h : s.step a = some s') : Move s a s' := by
  cases a with
  | startQuery id str matchType matchDist =>
    simp only [State.step] at h
    split at h
    · next hc =>
      obtain ⟨words, hw, rfl⟩ := Option.map_eq_some_iff.1 h
      cases matchType with
      | none => exact .badQuery hc hw
      | some t => exact .startQuery hc hw
    · cases h
  | endQuery id =>
    simp only [State.step] at h
    split at h
    · next hc => cases h; exact .endQuery hc
    · cases h
  | matchDocument docId docStr =>
    simp only [State.step] at h
    split at h
    · next hc => cases h; exact .matchDocument hc
    · cases h
  | getNextAvailRes =>
    simp only [State.step] at h
    split at h
    · next hc =>
      obtain ⟨q, hq, rfl⟩ := Option.map_eq_some_iff.1 h
      exact .getNextAvailRes hc hq
    · cases h
  | client woken => exact clientStep_move h
  | start i =>
    obtain ⟨jobs, hj, rfl⟩ := Option.map_eq_some_iff.1 h
    exact .start hj
  | work i c =>
    simp only [State.step, State.workStep] at h
    split at h
    · next hw hj =>
      obtain ⟨index, hins, rfl⟩ := Option.map_eq_some_iff.1 h
      exact .insertTree hw hj hins
    · next hw hj => cases h; exact .insertTable hw hj
    · next hw hj =>
      obtain ⟨res, hres, rfl⟩ := Option.map_eq_some_iff.1 h
      exact .beginDoc hw hj hres
    · next hw hj => exact matchDoc_move (by simp only [State.docRun, hw, hj]) h
    · cases h
  | finish i =>
    simp only [State.step] at h
    split at h
    · next hw =>
      obtain ⟨jobs, hj, rfl⟩ := Option.map_eq_some_iff.1 h
      exact .finish hw hj
    · cases h
  | startTask i j =>
    obtain ⟨⟨node, r⟩, hr, h⟩ := Option.bind_eq_some_iff.1 h
    obtain ⟨sub, hs, rfl⟩ := Option.map_eq_some_iff.1 h
    exact .startTask hr hs
  | task i j =>
    obtain ⟨⟨node, r⟩, hr, h⟩ := Option.bind_eq_some_iff.1 h
    exact taskStep_move hr h
  | finishTask i j =>
    obtain ⟨⟨node, r⟩, hr, h⟩ := Option.bind_eq_some_iff.1 h
    simp only at h
    split at h
    · next ht =>
      obtain ⟨sub, hs, rfl⟩ := Option.map_eq_some_iff.1 h
      exact .finishTask hr ht hs
    · cases h
  | spurious t =>
    obtain ⟨q, hq, rfl⟩ := Option.map_eq_some_iff.1 h
    exact .spurious hq

end Moves

end K23Search.Core
