/-
The counters of `thresholdCounters` (core.cpp) are of type `int`. `State.stepInt` is the step of the engine with this
limit: `edit++` and `hamming++` of 2^31 - 1 and `edit--` and `hamming--` of -2^31 are undefined, as is taking from a
counter that is not there.

Results:
- `counters_exact_iff`: runs of valid calls are runs with `int` counters, which are exact then, if and only if no
  `StartQuery` finds 2^31 - 1 active queries of its type and threshold.
Counterexample:
- `counter_overflows`: 2^31 edit queries with one threshold.
-/
import K23Search.Core.Registry

namespace K23Search.Core

open K23Search.Lib K23Search.Text

variable {n : ℕ}

/-! ## Model -/

namespace State

/-- no `int` of `thresholdCounters` overflows in the step, and the counter that is taken from is there -/
def countersFit (s : State n) : Act n → Bool
  | .client _ =>
    match s.client with
    | .starting q [] => (s.heap[q]?).all fun query =>
      counterOf s.thresholdCounters query.matchType query.matchDist + 1 < 2 ^ 31
    | .ending id => ((s.queries.get id).bind fun q => s.heap[q]?).all fun query =>
      query.matchType = .exactMatch || ((s.thresholdCounters.get query.matchDist).isSome &&
        -2 ^ 31 ≤ counterOf s.thresholdCounters query.matchType query.matchDist - 1)
    | _ => true
  | _ => true

/-- a step of the engine, with `int` counters -/
def stepInt [NeZero n] : State n → Act n → Option (State n) := guarded countersFit step

/-- a `StartQuery` that is about to count its query finds fewer than 2^31 - 1 active ones of the type and threshold -/
def Countable (s : State n) (a : Act n) : Prop :=
  ∀ woken p query, a = .client woken → s.client = .starting p [] → s.heap[p]? = some query →
    query.matchType ≠ .exactMatch → s.counted.countP (Query.isActive query.matchType query.matchDist) < 2 ^ 31 - 1

end State

/-! ## Exactness -/

section Exact

variable [NeZero n] {s : State n} {a : Act n} {as : List (Act n)}

omit [NeZero n] in
theorem counterOf_exact (counters : ThresholdCounters) (k : ℕ) : counterOf counters .exactMatch k = 0 := by
  unfold counterOf
  cases counters.get k <;> rfl

/-- in a reachable state the counters fit unless there are too many queries -/
theorem countersFit_iff (hr : run State.step State.init as = some s) (hd : DistinctCalls as) :
    s.countersFit a = true ↔ s.Countable a := by
  have hcount := counted hr hd
  unfold State.countersFit State.Countable
  split
  · next woken =>
    split
    · next p hcl =>
      rw [Option.all_eq_true]
      constructor
      · intro h woken' p' query _ hcl' hq ht
        rw [hcl] at hcl'
        cases hcl'
        have hlt := h query hq
        rw [decide_eq_true_eq, hcount _ ht] at hlt
        omega
      · intro h query hq
        rw [decide_eq_true_eq]
        by_cases ht : query.matchType = .exactMatch
        · rw [ht, counterOf_exact]
          decide
        · rw [hcount _ ht]
          have := h woken p query rfl hcl hq ht
          omega
    · next id hcl =>
      refine iff_of_true ?_ fun _ p _ _ hcl' => by rw [hcl] at hcl'; cases hcl'
      rw [Option.all_eq_true]
      intro query hquery
      obtain ⟨p, hget, hq⟩ := Option.bind_eq_some_iff.1 hquery
      by_cases ht : query.matchType = .exactMatch
      · rw [ht]
        rfl
      · obtain ⟨c, hc⟩ := counter_of_ending hr hd hcl hget hq ht
        rw [hc, hcount _ ht]
        simp only [Option.isSome_some, Bool.true_and, Bool.or_eq_true, decide_eq_true_eq]
        omega
    · next hno _ => exact iff_of_true rfl fun _ p _ _ hcl => absurd hcl (hno p)
  · next hno => exact iff_of_true rfl fun woken _ _ ha => absurd ha (hno woken)

omit [NeZero n] in
theorem DistinctCalls.left {bs : List (Act n)} (h : DistinctCalls (as ++ bs)) : DistinctCalls as := by
  refine ⟨?_, ?_⟩
  · have hstarts := h.starts
    rw [startIds, List.filterMap_append] at hstarts
    exact (List.nodup_append.1 hstarts).1
  · have hends := h.ends
    rw [endIds, List.filterMap_append] at hends
    exact (List.nodup_append.1 hends).1

theorem meets_countersFit (hd : DistinctCalls as) :
    Meets State.step State.init (fun _ (u : State n) a => u.countersFit a = true) as ↔
      Meets State.step State.init (fun _ u a => u.Countable a) as := by
  constructor
  all_goals
    intro h pre a post u heq hu
    have hpre : DistinctCalls pre := DistinctCalls.left (heq ▸ hd)
  · exact (countersFit_iff hu hpre).1 (h pre a post u heq hu)
  · exact (countersFit_iff hu hpre).2 (h pre a post u heq hu)

/-- fewer than 2^31 calls of `StartQuery` count fewer queries -/
theorem countable_of_few (hr : run State.step State.init as = some s) (hd : DistinctCalls as)
    (hfew : (startIds as).length < 2 ^ 31) (a : Act n) : s.Countable a := by
  intro woken p query _ hcl _ _
  have hreg := registry hr hd
  obtain ⟨hlen, -⟩ := hreg.new p (by rw [hcl]; rfl)
  have hcounted : s.counted.length = s.heap.length - 1 := by
    unfold State.counted
    rw [hcl]
    exact List.length_dropLast
  have hheap : s.heap.length ≤ (startIds as).length := by
    have hids := congrArg List.length hreg.ids
    rw [List.length_map, List.length_map] at hids
    have hstarted := (started_ids_sublist as).length_le
    rw [List.length_map] at hstarted
    omega
  have hle := @List.countP_le_length _ (Query.isActive query.matchType query.matchDist) s.counted
  omega

theorem meets_of_few (hd : DistinctCalls as) (hfew : (startIds as).length < 2 ^ 31) :
    Meets State.step State.init (fun _ (u : State n) a => u.Countable a) as := by
  intro pre a post u heq hu
  have hpre : (startIds pre).length ≤ (startIds as).length := by
    rw [heq, startIds, startIds, List.filterMap_append, List.length_append]
    exact Nat.le_add_right _ _
  exact countable_of_few hu (DistinctCalls.left (heq ▸ hd)) (Nat.lt_of_le_of_lt hpre hfew) a

/-- **The counters are exact** in the states reached by calls as `core.h` promises them, exactly when no `StartQuery`
finds 2^31 - 1 active queries of its type and threshold: then every step is defined with `int` counters as well. So it
is with fewer than 2^31 calls of `StartQuery`. (A run ends at a step that is undefined in the source: a search with the
subscript of a word of 31 letters. It goes on where `MatchDocument` throws, for 2^32 active queries, which writes to no
counter: see `Process`.) -/
theorem counters_exact_iff (hr : run State.step State.init as = some s) (hd : DistinctCalls as)
    (htyped : ∀ a ∈ as, a.Typed) (hends : EndsStarted as) (hids : ∀ id ∈ startIds as, id < 2 ^ 32) :
    ((run State.stepInt State.init as = some s ∧ CountersExact s) ↔
      Meets State.step State.init (fun _ u a => u.Countable a) as) ∧
    ((startIds as).length < 2 ^ 31 → Meets State.step State.init (fun _ u a => u.Countable a) as) := by
  refine ⟨?_, meets_of_few hd⟩
  have hexact := counters_of_run hr hd htyped hends hids
  rw [State.stepInt, run_guarded, meets_countersFit hd]
  exact ⟨fun h => h.1.2, fun h => ⟨⟨hr, h⟩, hexact⟩⟩

/-- an edit query that is registered while its insertion is still pending -/
def editQuery : List (Act 1) :=
  [.startQuery 1 [97, 98, 99, 100] (some .editDist) 2, .client fun _ => true, .client fun _ => true,
    .client fun _ => true]

theorem counters_exact_edit : ∃ s, run State.stepInt State.init editQuery = some s ∧
    s.activeQueries = s.registered.countP Query.active ∧
    (2 ∈ searchKeys s.thresholdCounters .editDist ↔ ∃ q ∈ s.registered, q.isActive .editDist 2 = true) := by
  have hobs : (run State.step State.init editQuery).map State.client = some .idle := by decide +kernel
  obtain ⟨s, hs, hidle⟩ := Option.map_eq_some_iff.1 hobs
  have htyped : ∀ a ∈ editQuery, a.Typed := by simp [editQuery, Act.Typed]
  have hends : EndsStarted editQuery := by
    intro pre id post heq
    have hmem : .endQuery id ∈ editQuery := heq ▸ List.mem_append_right _ List.mem_cons_self
    simp [editQuery] at hmem
  obtain ⟨hiff, hfew⟩ := counters_exact_iff hs ⟨by decide, by decide⟩ htyped hends (by decide)
  obtain ⟨hrun, hexact⟩ := hiff.2 (hfew (by decide))
  obtain ⟨hactive, hcounters⟩ := hexact.between (by rw [hidle]; rfl) (by rw [hidle]; rfl)
  exact ⟨s, hrun, hactive, (hcounters .editDist nofun 2).2⟩

end Exact

/-! ## An overflow -/

section Overflow

/-- `StartQuery(id, "abcd", MT_EDIT_DIST, 0)`, up to the counting of the query -/
def startCount (id : ℕ) : List (Act 1) :=
  [.startQuery id [97, 98, 99, 100] (some .editDist) 0, .client fun _ => true]

/-- the call, and its return -/
def startEdit (id : ℕ) : List (Act 1) := startCount id ++ [.client fun _ => true, .client fun _ => true]

def startEdits (k : ℕ) : List (Act 1) := (List.range k).flatMap startEdit

/-- the query that it makes -/
def madeQuery (id : ℕ) : Query :=
  ⟨id, true, .editDist, 0, [97, 98, 99, 100], WordSet.ofWords wordHash 5 [[97, 98, 99, 100]]⟩

theorem startEdits_succ (k : ℕ) : startEdits (k + 1) = startEdits k ++ startEdit k := by
  rw [startEdits, List.range_succ, List.flatMap_append, List.flatMap_singleton, startEdits]

variable {s : State 1}

theorem startCount_run (hidle : s.client = .idle) (id : ℕ) : ∃ u, run State.step s (startCount id) = some u ∧
    u.client = .starting s.heap.length [] ∧ u.heap = s.heap ++ [madeQuery id] ∧ u.queries = s.queries ∧
    u.thresholdCounters = s.thresholdCounters := by
  have htokens : tokens [97, 98, 99, 100] = some [[97, 98, 99, 100]] := by decide +kernel
  have hwords : (WordSet.ofWords wordHash 5 [([97, 98, 99, 100] : Word)]).toList = [[97, 98, 99, 100]] := by
    decide +kernel
  obtain ⟨u, hu, hcl, hheap, hqueries, hcounters⟩ : ∃ u,
      s.step (.startQuery id [97, 98, 99, 100] (some .editDist) 0) = some u ∧
      u.client = .starting s.heap.length [.addToTree s.heap.length [97, 98, 99, 100] .edit] ∧
      u.heap = s.heap ++ [madeQuery id] ∧ u.queries = s.queries ∧ u.thresholdCounters = s.thresholdCounters := by
    simp only [State.step, hidle, State.startQuery, htokens, Option.map_some, insertJobs, hwords, List.map_cons,
      List.map_nil]
    exact ⟨_, rfl, rfl, rfl, rfl, rfl⟩
  obtain ⟨v, hv, hv'⟩ : ∃ v, u.step (.client fun _ => true) = some v ∧ v.client = .starting s.heap.length [] ∧
      v.heap = u.heap ∧ v.queries = u.queries ∧ v.thresholdCounters = u.thresholdCounters := by
    simp only [State.step, State.clientStep, hcl]
    exact ⟨_, rfl, rfl, rfl, rfl, rfl⟩
  refine ⟨v, by rw [startCount, run, hu, Option.bind_some, run, hv]; rfl, hv'.1, ?_⟩
  rw [hv'.2.1, hv'.2.2.1, hv'.2.2.2]
  exact ⟨hheap, hqueries, hcounters⟩

/-- the call returns for a new id -/
theorem startEdit_run (hidle : s.client = .idle) {id : ℕ} (hnew : s.queries.get id = none) :
    ∃ t, run State.step s (startEdit id) = some t ∧ t.client = .idle ∧ t.heap = s.heap ++ [madeQuery id] := by
  obtain ⟨u, hu, hcl, hheap, hqueries, -⟩ := startCount_run hidle id
  have hq : u.heap[s.heap.length]? = some (madeQuery id) := by rw [hheap, List.getElem?_concat_length]
  obtain ⟨v, hv, hcl', hheap', hqueries'⟩ : ∃ v, u.step (.client fun _ => true) = some v ∧
      v.client = .registering s.heap.length ∧ v.heap = u.heap ∧ v.queries = u.queries := by
    simp only [State.step, State.clientStep, hcl, hq, Option.map_some]
    exact ⟨_, rfl, rfl, rfl, rfl⟩
  obtain ⟨t, ht, hidle', hheap''⟩ : ∃ t, v.step (.client fun _ => true) = some t ∧ t.client = .idle ∧
      t.heap = v.heap := by
    have hget : v.queries.get (madeQuery id).id = none := by rw [hqueries', hqueries]; exact hnew
    rw [← hheap'] at hq
    simp only [State.step, State.clientStep, hcl', State.register, hq, Option.bind_some, hget]
    exact ⟨_, rfl, rfl, rfl⟩
  refine ⟨t, ?_, hidle', by rw [hheap'', hheap', hheap]⟩
  rw [startEdit, run_append, hu, Option.bind_some, run, hv, Option.bind_some, run, ht]
  rfl

theorem startIds_startEdits (k : ℕ) : startIds (startEdits k) = List.range k := by
  induction k with
  | zero => rfl
  | succ k ih =>
    rw [startEdits_succ, startIds, List.filterMap_append, List.range_succ]
    exact congrArg (· ++ [k]) ih

theorem mem_startEdits {k : ℕ} {a : Act 1} (h : a ∈ startEdits k) :
    (∃ id, a = .startQuery id [97, 98, 99, 100] (some .editDist) 0) ∨ a = .client fun _ => true := by
  obtain ⟨id, -, ha⟩ := List.mem_flatMap.1 h
  simp only [startEdit, startCount, List.cons_append, List.nil_append, List.mem_cons, List.not_mem_nil, or_false] at ha
  rcases ha with rfl | rfl | rfl | rfl
  · exact .inl ⟨id, rfl⟩
  all_goals exact .inr rfl

theorem distinct_startEdits (k : ℕ) : DistinctCalls (startEdits k) where
  starts := by rw [startIds_startEdits]; exact List.nodup_range
  ends := by
    have hnil : endIds (startEdits k) = [] := List.filterMap_eq_nil_iff.2 fun a ha => by
      rcases mem_startEdits ha with ⟨id, rfl⟩ | rfl <;> rfl
    rw [hnil]
    exact List.nodup_nil

/-- the state after `k` calls -/
theorem startEdits_run (k : ℕ) : ∃ s, run State.step State.init (startEdits k) = some s ∧ s.client = .idle ∧
    s.heap.length = k ∧ ∀ q ∈ s.heap, q.isActive .editDist 0 = true := by
  induction k with
  | zero => exact ⟨State.init, rfl, rfl, rfl, fun q hq => absurd hq List.not_mem_nil⟩
  | succ k ih =>
    obtain ⟨s, hs, hidle, hlen, hactive⟩ := ih
    have hnew : s.queries.get k = none := by
      by_contra hget
      obtain ⟨p, hp⟩ := Option.ne_none_iff_exists'.1 hget
      obtain ⟨q, hq, hid⟩ := (registry hs (distinct_startEdits k)).found k p hp
      have hstarted := (started_ids_sublist (startEdits k)).subset
        ((registry hs (distinct_startEdits k)).mem_started hq)
      rw [startIds_startEdits, hid, List.mem_range] at hstarted
      exact Nat.lt_irrefl k hstarted
    obtain ⟨t, ht, hidle', hheap⟩ := startEdit_run hidle hnew
    refine ⟨t, ?_, hidle', ?_, ?_⟩
    · rw [startEdits_succ, run_append, hs, Option.bind_some, ht]
    · rw [hheap, List.length_append, List.length_singleton, hlen]
    · intro q hq
      rw [hheap] at hq
      rcases List.mem_append.1 hq with hq | hq
      · exact hactive q hq
      · rw [List.mem_singleton.1 hq]
        rfl

/-- the next call overflows the counter -/
theorem startEdit_overflows {k : ℕ} (hk : 2 ^ 31 ≤ k + 1) : run State.stepInt State.init (startEdits (k + 1)) = none := by
  obtain ⟨s, hs, hidle, hlen, hactive⟩ := startEdits_run k
  obtain ⟨u, hu, hcl, hheap, -, hcounters⟩ := startCount_run hidle k
  refine Option.eq_none_iff_forall_not_mem.2 fun t ht => ?_
  obtain ⟨-, hm⟩ := run_guarded.1 ht
  have hrun : run State.step State.init (startEdits k ++ startCount k) = some u := by
    rw [run_append, hs, Option.bind_some, hu]
  have hfit := hm (startEdits k ++ startCount k) (.client fun _ => true) [.client fun _ => true] u
    (by rw [startEdits_succ, startEdit, List.append_assoc]) hrun
  have hq : u.heap[s.heap.length]? = some (madeQuery k) := by rw [hheap, List.getElem?_concat_length]
  have hcount : counterOf u.thresholdCounters .editDist 0 = k := by
    have hcounted : s.counted = s.heap := counted_eq (by rw [hidle]; exact nofun)
    rw [hcounters, counted hs (distinct_startEdits k) .editDist nofun 0, hcounted, List.countP_eq_length.2 hactive, hlen]
  simp only [State.countersFit, hcl, hq, Option.all_some, decide_eq_true_eq] at hfit
  change counterOf u.thresholdCounters .editDist 0 + 1 < 2 ^ 31 at hfit
  rw [hcount] at hfit
  omega

/-- **An overflow.** The last of 2^31 calls of `StartQuery`, of edit queries with distinct ids and one threshold, adds 1
to a counter that is 2^31 - 1. -/
theorem counter_overflows : ∃ s : State 1, run State.step State.init (startEdits (2 ^ 31)) = some s ∧
    DistinctCalls (startEdits (2 ^ 31)) ∧ (∀ a ∈ startEdits (2 ^ 31), a.Typed) ∧ EndsStarted (startEdits (2 ^ 31)) ∧
    (∀ id ∈ startIds (startEdits (2 ^ 31)), id < 2 ^ 32) ∧
    run State.stepInt State.init (startEdits (2 ^ 31)) = none := by
  obtain ⟨s, hs, -⟩ := startEdits_run (2 ^ 31)
  refine ⟨s, hs, distinct_startEdits _, fun a ha => ?_, fun pre id post heq => ?_, fun id hid => ?_, ?_⟩
  · rcases mem_startEdits ha with ⟨id, rfl⟩ | rfl
    · rfl
    · trivial
  · have hmem : .endQuery id ∈ startEdits (2 ^ 31) := heq ▸ List.mem_append_right _ List.mem_cons_self
    rcases mem_startEdits hmem with ⟨_, h⟩ | h <;> cases h
  · rw [startIds_startEdits, List.mem_range] at hid
    omega
  · exact startEdit_overflows (show 2 ^ 31 ≤ 2 ^ 31 - 1 + 1 by norm_num)

end Overflow

end K23Search.Core
