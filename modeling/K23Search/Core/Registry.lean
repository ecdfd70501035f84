/-
The queries that are registered, their active flags and the counters over them.

Results:
- `registry`: the table `queries` has the queries started, each under its id, and the active ones are those that the calls
  leave active, in every reachable state;
- `counters_of_run`: `thresholdCounters` and `active_queries` count the registered active queries, and `match_queries`
  searches exactly the thresholds of such queries;
- `failed_call_drifts`: a call that returns `EC_FAIL` leaves the tables alone, but not `active_queries`.
Counterexample:
- `failed_call_wraps`: an `EndQuery` of an id that is not registered takes `active_queries` below zero.
-/
import K23Search.Core.Indexing

namespace K23Search.Core

open K23Search.Lib K23Search.Text

/-! ## Model -/

/-- the query that `StartQuery` has made and not registered yet -/
def ClientPc.newQuery : ClientPc → Option ℕ
  | .starting p _ => some p
  | .registering p => some p
  | _ => none

/-- the id that `EndQuery` is called with -/
def ClientPc.endingId : ClientPc → Option ℕ
  | .ending id => some id
  | _ => none

namespace State

variable {n : ℕ} (s : State n)

/-- the queries in the table, in the order of its slots -/
def registered : List Query := s.queries.entries.filterMap fun e => s.heap[e.2]?

/-- the queries that `StartQuery` has counted -/
def counted : List Query :=
  match s.client with
  | .starting _ _ => s.heap.dropLast
  | _ => s.heap

end State

/-- an active query with this type and threshold -/
def Query.isActive (t : MatchType) (k : ℕ) (q : Query) : Bool := q.active && (q.matchType = t && q.matchDist = k)

/-- the counter of a type for a threshold, 0 when there is none -/
def counterOf (counters : ThresholdCounters) (t : MatchType) (k : ℕ) : ℤ :=
  (counters.get k).elim 0 fun c =>
    match t with
    | .editDist => c.edit
    | .hammingDist => c.hamming
    | .exactMatch => 0

/-! ## The table -/

structure Registry {n : ℕ} (as : List (Act n)) (s : State n) : Prop where
  ids : s.heap.map Query.id = (started as).map Asked.id
  found : ∀ id p, s.queries.get id = some p → ∃ q, s.heap[p]? = some q ∧ q.id = id
  new : ∀ p, s.client.newQuery = some p → p + 1 = s.heap.length ∧ ∃ q, s.heap[p]? = some q ∧ q.active = true
  registered : ∀ (p : ℕ) (q : Query), s.heap[p]? = some q → s.queries.get q.id = some p ∨ s.client.newQuery = some p
  ended : ∀ id, s.client.endingId = some id → id ∉ (activeAfter as).map Asked.id
  active : ∀ (p : ℕ) (q : Query), s.heap[p]? = some q →
    (q.active = true ↔ q.id ∈ (activeAfter as).map Asked.id ∨ s.client.endingId = some q.id)

section Registry

variable {n : ℕ} {s s' : State n} {a : Act n} {as : List (Act n)}

theorem getElem?_modify_some {α : Type} {l : List α} {f : α → α} {i j : ℕ} {y : α} (h : (l.modify i f)[j]? = some y) :
    ∃ x, l[j]? = some x ∧ y = if i = j then f x else x := by
  rw [List.getElem?_modify] at h
  obtain ⟨x, hx, rfl⟩ := Option.map_eq_some_iff.1 h
  exact ⟨x, hx, rfl⟩

theorem Registry.distinct (h : Registry as s) (hd : DistinctCalls as) : DistinctIds s.heap := by
  have hnd : (s.heap.map Query.id).Nodup := by
    rw [h.ids]
    exact hd.starts.sublist (started_ids_sublist as)
  intro p p' q q' hq hq' hid
  have hp : (s.heap.map Query.id)[p]? = some q.id := by rw [List.getElem?_map, hq, Option.map_some]
  have hp' : (s.heap.map Query.id)[p']? = some q.id := by rw [List.getElem?_map, hq', Option.map_some, hid]
  have hlt : p < (s.heap.map Query.id).length := (List.getElem?_eq_some_iff.1 hp).1
  exact (List.getElem?_inj hlt hnd).1 (hp.trans hp'.symm)

/-- a query in the heap has been started -/
theorem Registry.mem_started (h : Registry as s) {p : ℕ} {q : Query} (hq : s.heap[p]? = some q) :
    q.id ∈ (started as).map Asked.id := by
  rw [← h.ids]
  exact List.mem_map_of_mem (List.mem_of_getElem? hq)

theorem activeAfter_inside (hask : a.asked = none) (hend : a.endId = none) : activeAfter (as ++ [a]) = activeAfter as := by
  rw [activeAfter_snoc, activeStep, hask, hend]

theorem started_inside (hask : a.asked = none) : started (as ++ [a]) = started as := by
  rw [started_snoc, hask, Option.toList_none, List.append_nil]

/-- when no `StartQuery` is under way, every query is in the table -/
theorem Registry.get (h : Registry as s) (hnew : s.client.newQuery = none) {p : ℕ} {q : Query} (hq : s.heap[p]? = some q) :
    s.queries.get q.id = some p :=
  (h.registered p q hq).resolve_right (by simp [hnew])

/-- a step that calls neither `StartQuery` nor `EndQuery` and writes to no query -/
theorem Registry.frame (h : Registry as s) (hask : a.asked = none) (hend : a.endId = none)
    (hqueries : s'.queries = s.queries) (hheap : s'.heap = s.heap) (hnew : s'.client.newQuery = s.client.newQuery)
    (hending : s'.client.endingId = s.client.endingId) : Registry (as ++ [a]) s' := by
  have hact : activeAfter (as ++ [a]) = activeAfter as := activeAfter_inside hask hend
  constructor
  case ids => rw [hheap, started_inside hask, h.ids]
  case found => rw [hqueries, hheap]; exact h.found
  case new => rw [hnew, hheap]; exact h.new
  case registered => rw [hqueries, hheap, hnew]; exact h.registered
  case ended => rw [hending, hact]; exact h.ended
  case active => rw [hheap, hact, hending]; exact h.active

/-- the call of `StartQuery` -/
theorem Registry.startQuery (h : Registry as s) (hd : DistinctCalls (as ++ [a])) (hcl : s.client = .idle) {b : Asked}
    {q : Query} (hask : a.asked = some b) (hstart : a.startId = some b.id) (hid : q.id = b.id) (hactive : q.active = true)
    (hqueries : s'.queries = s.queries) (hheap : s'.heap = s.heap ++ [q])
    (hnew : s'.client.newQuery = some s.heap.length) (hending : s'.client.endingId = none) : Registry (as ++ [a]) s' := by
  have hne : ∀ (p : ℕ) (q' : Query), s.heap[p]? = some q' → q'.id ≠ b.id := by
    intro p q' hq' heq
    exact hd.new_start hstart ((started_ids_sublist as).subset (heq ▸ h.mem_started hq'))
  have hmem : ∀ x, x ∈ (activeAfter (as ++ [a])).map Asked.id ↔ x ∈ (activeAfter as).map Asked.id ∨ x = b.id := by
    intro x
    rw [activeAfter_snoc, activeStep, hask]
    simp
  constructor
  case ids =>
    rw [hheap, started_snoc, hask, List.map_append, List.map_append, h.ids, List.map_singleton, hid]
    rfl
  case found =>
    intro id p hget
    rw [hqueries] at hget
    obtain ⟨q', hq', hid'⟩ := h.found id p hget
    rw [hheap]
    exact ⟨q', (List.getElem?_append_left (List.getElem?_eq_some_iff.1 hq').1).trans hq', hid'⟩
  case new =>
    intro p hp
    cases hnew.symm.trans hp
    rw [hheap]
    exact ⟨by simp, _, List.getElem?_concat_length, hactive⟩
  case registered =>
    intro p q' hq'
    rw [hheap] at hq'
    rcases getElem?_snoc hq' with hold | ⟨rfl, -⟩
    · rw [hqueries]
      exact .inl (h.get (by rw [hcl]; rfl) hold)
    · exact .inr hnew
  case ended => simp [hending]
  case active =>
    intro p q' hq'
    rw [hheap] at hq'
    rw [hmem, hending]
    rcases getElem?_snoc hq' with hold | ⟨rfl, rfl⟩
    · rw [h.active p q' hold, hcl]
      simp [ClientPc.endingId, hne p q' hold]
    · simp [hactive, hid]

/-- the call of `EndQuery` -/
theorem Registry.endQuery (h : Registry as s) (hd : DistinctCalls (as ++ [a])) (hcl : s.client = .idle) {id : ℕ}
    (hask : a.asked = none) (hend : a.endId = some id) (hqueries : s'.queries = s.queries) (hheap : s'.heap = s.heap)
    (hnew : s'.client.newQuery = none) (hending : s'.client.endingId = some id) : Registry (as ++ [a]) s' := by
  have hactive : activeAfter (as ++ [a]) = (activeAfter as).filter fun q => q.id ≠ id := by
    rw [activeAfter_snoc, activeStep, hask, hend]
  constructor
  case ids => rw [hheap, started_inside hask, h.ids]
  case found => rw [hqueries, hheap]; exact h.found
  case new => simp [hnew]
  case registered =>
    intro p q hq
    rw [hheap] at hq
    rw [hqueries]
    exact .inl (h.get (by rw [hcl]; rfl) hq)
  case ended =>
    intro id' hid
    cases hending.symm.trans hid
    rw [hactive]
    simp
  case active =>
    intro p q hq
    rw [hheap] at hq
    have hold := h.active p q hq
    rw [hcl] at hold
    rw [hending]
    by_cases hid : q.id = id
    · -- it has not been ended before, so it is still active
      have hact : q.id ∈ (activeAfter as).map Asked.id := by
        obtain ⟨b, hb, hbid⟩ := List.mem_map.1 (h.mem_started hq)
        rw [← hbid]
        rcases active_or_ended hb with hact | hended
        · exact List.mem_map_of_mem hact
        · rw [hbid, hid] at hended
          exact absurd hended (hd.new_end hend)
      exact iff_of_true (hold.2 (.inl hact)) (.inr (by rw [hid]))
    · have hmem : q.id ∈ (activeAfter (as ++ [a])).map Asked.id ↔ q.id ∈ (activeAfter as).map Asked.id := by
        rw [hactive]
        simp only [List.mem_map, List.mem_filter, decide_eq_true_eq]
        constructor
        · rintro ⟨b, hb, hbid⟩
          exact ⟨b, hb.1, hbid⟩
        · rintro ⟨b, hb, hbid⟩
          exact ⟨b, ⟨hb, hbid ▸ hid⟩, hbid⟩
      rw [hmem, hold]
      simp [ClientPc.endingId, Ne.symm hid]

/-- `StartQuery` puts its query into the table -/
theorem Registry.register (h : Registry as s) (hask : a.asked = none) (hend : a.endId = none) {p : ℕ} {query : Query}
    (hcl : s.client = .registering p) (hq : s.heap[p]? = some query) (hnew : s.queries.get query.id = none)
    (hqueries : s'.queries = s.queries.insert query.id p) (hheap : s'.heap = s.heap) (hidle : s'.client = .idle) :
    Registry (as ++ [a]) s' := by
  have hget := fun k => Table.get_insert_new s.queries hnew p k
  constructor
  case ids => rw [hheap, started_inside hask, h.ids]
  case found =>
    intro id p' hget'
    rw [hqueries] at hget'
    rw [hheap]
    have hcase := (hget id).symm.trans hget'
    split at hcase
    · next hid =>
      cases hcase
      exact ⟨query, hq, hid⟩
    · exact h.found id p' hcase
  case new => simp [hidle, ClientPc.newQuery]
  case registered =>
    intro p' q' hq'
    rw [hheap] at hq'
    rw [hqueries]
    refine .inl ((hget q'.id).trans ?_)
    rcases h.registered p' q' hq' with hold | hp
    · split
      · next hid =>
        rw [← hid, hnew] at hold
        cases hold
      · exact hold
    · rw [hcl] at hp
      cases hp
      have hqq : some query = some q' := hq.symm.trans hq'
      cases hqq
      rw [if_pos rfl]
  case ended => simp [hidle, ClientPc.endingId]
  case active =>
    intro p' q' hq'
    rw [hheap] at hq'
    rw [activeAfter_inside hask hend, hidle]
    have hold := h.active p' q' hq'
    rwa [hcl] at hold

/-- `EndQuery` finds no query of its id -/
theorem Registry.endUnknown (h : Registry as s) (hask : a.asked = none) (hend : a.endId = none) {id : ℕ}
    (hcl : s.client = .ending id) (hget : s.queries.get id = none) (hqueries : s'.queries = s.queries)
    (hheap : s'.heap = s.heap) (hidle : s'.client = .idle) : Registry (as ++ [a]) s' := by
  have hreg : ∀ {p : ℕ} {q : Query}, s.heap[p]? = some q → s.queries.get q.id = some p := h.get (by rw [hcl]; rfl)
  have hnone : ∀ (p : ℕ) (q : Query), s.heap[p]? = some q → q.id ≠ id := by
    rintro p q hq rfl
    cases hget.symm.trans (hreg hq)
  constructor
  case ids => rw [hheap, started_inside hask, h.ids]
  case found => rw [hqueries, hheap]; exact h.found
  case new => simp [hidle, ClientPc.newQuery]
  case registered =>
    intro p q hq
    rw [hheap] at hq
    rw [hqueries]
    exact .inl (hreg hq)
  case ended => simp [hidle, ClientPc.endingId]
  case active =>
    intro p q hq
    rw [hheap] at hq
    rw [activeAfter_inside hask hend, hidle]
    refine (h.active p q hq).trans ?_
    rw [hcl]
    simp [ClientPc.endingId, (hnone p q hq).symm]

/-- `EndQuery` clears the flag of its query -/
theorem Registry.clearActive (h : Registry as s) (hids : DistinctIds s.heap) (hask : a.asked = none) (hend : a.endId = none)
    {id p : ℕ} {query : Query} (hcl : s.client = .ending id) (hget : s.queries.get id = some p)
    (hq : s.heap[p]? = some query) (hqueries : s'.queries = s.queries)
    (hheap : s'.heap = s.heap.modify p fun q => { q with active := false }) (hidle : s'.client = .idle) :
    Registry (as ++ [a]) s' := by
  obtain ⟨q₀, hq₀, hid⟩ := h.found id p hget
  cases hq.symm.trans hq₀
  have hmod : ∀ (p' : ℕ) (q' : Query), s'.heap[p']? = some q' →
      (p' = p ∧ q' = { query with active := false }) ∨ (p' ≠ p ∧ s.heap[p']? = some q') := by
    intro p' q' hq'
    rw [hheap] at hq'
    obtain ⟨q₁, hq₁, rfl⟩ := getElem?_modify_some hq'
    by_cases hp : p = p'
    · subst hp
      cases hq.symm.trans hq₁
      exact .inl ⟨rfl, if_pos rfl⟩
    · exact .inr ⟨Ne.symm hp, by rwa [if_neg hp]⟩
  constructor
  case ids =>
    rw [hheap, started_inside hask, ← h.ids]
    have hids' := congrArg (List.map Query.id) (started_modify s.heap p)
    rwa [List.map_map, List.map_map] at hids'
  case found =>
    intro id' p' hget'
    rw [hqueries] at hget'
    obtain ⟨q', hq', hid'⟩ := h.found id' p' hget'
    rw [hheap]
    refine ⟨_, (List.getElem?_modify ..).trans (by rw [hq']; rfl), ?_⟩
    by_cases hp : p = p' <;> simp [hp, hid']
  case new => simp [hidle, ClientPc.newQuery]
  case registered =>
    intro p' q' hq'
    have hreg : ∀ {p : ℕ} {q : Query}, s.heap[p]? = some q → s.queries.get q.id = some p := h.get (by rw [hcl]; rfl)
    rw [hqueries]
    rcases hmod p' q' hq' with ⟨rfl, rfl⟩ | ⟨-, hold⟩
    · exact .inl (hreg (q := query) hq)
    · exact .inl (hreg hold)
  case ended => simp [hidle, ClientPc.endingId]
  case active =>
    intro p' q' hq'
    rw [activeAfter_inside hask hend, hidle]
    have hgone := h.ended id (by rw [hcl]; rfl)
    rcases hmod p' q' hq' with ⟨rfl, rfl⟩ | ⟨hne, hold⟩
    · simp [ClientPc.endingId, hid, hgone]
    · have hidne : q'.id ≠ id := fun heq => hne (hids p' p q' query hold hq (heq.trans hid.symm))
      rw [h.active p' q' hold, hcl]
      simp [ClientPc.endingId, Ne.symm hidne]

variable [NeZero n]

theorem Move.registry (hm : Move s a s') (hd : DistinctCalls (as ++ [a])) (h : Registry as s) :
    Registry (as ++ [a]) s' := by
  cases hm
  case startQuery hcl _ => exact h.startQuery hd hcl rfl rfl rfl rfl rfl rfl rfl rfl
  case endQuery hcl => exact h.endQuery hd hcl rfl rfl rfl rfl rfl rfl
  case register hcl hq hnew => exact h.register rfl rfl hcl hq hnew rfl rfl rfl
  case endUnknown hcl _ hget => exact h.endUnknown rfl rfl hcl hget rfl rfl rfl
  case ended hcl _ hget hq => exact h.clearActive (h.distinct hd.init) rfl rfl hcl hget hq rfl rfl rfl
  case badQuery hcl _ | matchDocument hcl | getNextAvailRes hcl _ | submitJob hcl | count hcl _ | cleared hcl _ |
      append hcl | parse hcl _ _ | submitDoc hcl _ | peekedNone hcl _ | peeked hcl _ | read hcl _ _ | dequeued hcl _ =>
    refine h.frame rfl rfl (by rfl) (by rfl) ?_ ?_
    all_goals
      rw [hcl]
      first
      | rfl
      | (dsimp only; split <;> rfl)
  all_goals exact h.frame rfl rfl (by rfl) (by rfl) (by rfl) (by rfl)

theorem registry_init : Registry [] (State.init : State n) where
  ids := rfl
  found id p hget := by simp [State.init] at hget
  new p hp := by cases hp
  registered p q hq := by cases hq
  ended id hid := by cases hid
  active p q hq := by cases hq

/-- **The registered queries**, in every reachable state -/
theorem registry (hr : run State.step State.init as = some s) (hd : DistinctCalls as) : Registry as s :=
  run_induction (G := fun _ _ _ => True) (I := fun as s => DistinctCalls as → Registry as s) (fun _ => registry_init)
    (fun _ _ _ _ _ _ ih hs hd => (step_move hs).registry hd (ih hd.init)) (meets_true _ _ _) hr hd

end Registry

/-! ## The counters -/

/-- the counters are those of the queries counted -/
def Counted {n : ℕ} (s : State n) : Prop :=
  ∀ t, t ≠ .exactMatch → ∀ k, counterOf s.thresholdCounters t k = s.counted.countP (Query.isActive t k)

section Counters

variable {n : ℕ} {s s' : State n} {a : Act n} {as : List (Act n)}

theorem counterOf_countQuery (counters : ThresholdCounters) (q : Query) {t : MatchType} (ht : t ≠ .exactMatch) (k : ℕ) :
    counterOf (countQuery counters q) t k =
      counterOf counters t k + if q.matchType = t ∧ q.matchDist = k then 1 else 0 := by
  unfold countQuery
  cases hq : q.matchType with
  | exactMatch => simp [ht.symm]
  | editDist | hammingDist =>
    cases hget : counters.get q.matchDist with
    | none =>
      by_cases hk : q.matchDist = k
      · subst hk
        cases t <;> simp_all [counterOf, Table.get_insert_new]
      · simp [counterOf, Table.get_insert_new _ hget, hk]
    | some c =>
      by_cases hk : k = q.matchDist
      · subst hk
        cases t <;> simp_all [counterOf, Table.get_modify]
      · simp [counterOf, Table.get_modify, hk, Ne.symm hk]

/-- the other way, when the counter is there -/
theorem counterOf_uncountQuery {counters : ThresholdCounters} {q : Query} {c : DistanceThresholdCounters}
    (hget : counters.get q.matchDist = some c) {t : MatchType} (ht : t ≠ .exactMatch) (k : ℕ) :
    counterOf (uncountQuery counters q) t k =
      counterOf counters t k - if q.matchType = t ∧ q.matchDist = k then 1 else 0 := by
  unfold uncountQuery
  cases hq : q.matchType with
  | exactMatch => simp [ht.symm]
  | editDist | hammingDist =>
    by_cases hk : k = q.matchDist
    · subst hk
      cases t <;> simp_all [counterOf, Table.get_modify]
    · simp [counterOf, Table.get_modify, hk, Ne.symm hk]

theorem uncountQuery_exact {counters : ThresholdCounters} {q : Query} (hq : q.matchType = .exactMatch) :
    uncountQuery counters q = counters := by rw [uncountQuery, hq]

theorem countP_modify {α : Type} (p : α → Bool) (f : α → α) {l : List α} {i : ℕ} {x : α} (h : l[i]? = some x) :
    (l.modify i f).countP p + (if p x then 1 else 0) = l.countP p + if p (f x) then 1 else 0 := by
  induction l generalizing i with
  | nil => cases h
  | cons y l ih =>
    cases i with
    | zero =>
      cases h
      simp only [List.modify_zero_cons, List.countP_cons]
      omega
    | succ i =>
      have := ih h
      simp only [List.modify_succ_cons, List.countP_cons]
      omega

theorem counted_eq (h : ∀ p rest, s.client ≠ .starting p rest) : s.counted = s.heap := by
  unfold State.counted
  split
  · next hc => exact absurd hc (h _ _)
  · rfl

/-- a step that counts no query -/
theorem Counted.frame (h : Counted s) (hcounters : s'.thresholdCounters = s.thresholdCounters)
    (hcounted : s'.counted = s.counted) : Counted s' := by
  unfold Counted
  rw [hcounters, hcounted]
  exact h

/-- the counter of a query that is counted has been made -/
theorem Counted.get (h : Counted s) {q : Query} (hq : q ∈ s.counted) (hact : q.active = true)
    (ht : q.matchType ≠ .exactMatch) : ∃ c, s.thresholdCounters.get q.matchDist = some c := by
  have hpos : 0 < s.counted.countP (Query.isActive q.matchType q.matchDist) :=
    List.countP_pos_iff.2 ⟨q, hq, by simp [Query.isActive, hact]⟩
  have hcount := h q.matchType ht q.matchDist
  unfold counterOf at hcount
  cases hget : s.thresholdCounters.get q.matchDist with
  | some c => exact ⟨c, rfl⟩
  | none =>
    rw [hget, Option.elim_none] at hcount
    omega

variable [NeZero n]

theorem Move.counted (hm : Move s a s') (hreg : Registry as s) (h : Counted s) : Counted s' := by
  cases hm
  case startQuery hcl _ =>
    refine h.frame rfl ?_
    rw [counted_eq (s := s) (by rw [hcl]; exact nofun)]
    exact List.dropLast_concat
  case count p query hcl hq =>
    obtain ⟨hlen, q, hq', hact⟩ := hreg.new p (by rw [hcl]; rfl)
    cases hq.symm.trans hq'
    have hheap : s.heap = s.counted ++ [query] := by
      have hlast : s.heap.getLast? = some query := by rw [List.getLast?_eq_getElem?, ← hlen, Nat.add_sub_cancel, hq]
      unfold State.counted
      rw [hcl]
      exact (List.dropLast_append_getLast? query hlast).symm
    intro t ht k
    have hold := h t ht k
    have hnew : counterOf (countQuery s.thresholdCounters query) t k = s.heap.countP (Query.isActive t k) := by
      rw [counterOf_countQuery _ _ ht, hold, hheap, List.countP_append, List.countP_singleton]
      simp [Query.isActive, hact]
    exact hnew
  case ended id p query hcl hdone hget hq =>
    obtain ⟨q₀, hq₀, hid⟩ := hreg.found id p hget
    cases hq.symm.trans hq₀
    have hact : query.active = true := (hreg.active p query hq).2 (.inr (by rw [hcl, hid]; rfl))
    have hcounted : s.counted = s.heap := counted_eq (by rw [hcl]; exact nofun)
    intro t ht k
    have hold := h t ht k
    rw [hcounted] at hold
    have hmod := countP_modify (Query.isActive t k) (fun q => { q with active := false }) hq
    have hnew : counterOf (uncountQuery s.thresholdCounters query) t k =
        (s.heap.modify p fun q => { q with active := false }).countP (Query.isActive t k) := by
      by_cases hexact : query.matchType = .exactMatch
      · rw [uncountQuery_exact hexact, hold]
        simp only [Query.isActive, hexact, ht.symm, decide_false, Bool.false_and, Bool.and_false] at hmod
        simpa using hmod.symm
      · obtain ⟨c, hc⟩ := h.get (hcounted ▸ List.mem_of_getElem? hq) hact hexact
        rw [counterOf_uncountQuery hc ht, hold]
        simp only [Query.isActive, hact, Bool.true_and, Bool.false_and, Bool.and_eq_true, decide_eq_true_eq] at hmod ⊢
        simp only [Bool.false_eq_true, if_false, add_zero] at hmod
        rw [← hmod]
        push_cast
        split <;> simp
    exact hnew
  case submitJob hcl =>
    refine h.frame rfl ?_
    unfold State.counted
    rw [hcl]
  case matchDocument hcl =>
    refine h.frame rfl ?_
    rw [counted_eq (s := s) (by rw [hcl]; exact nofun)]
    refine counted_eq ?_
    dsimp only
    split <;> exact nofun
  case badQuery hcl _ | endQuery hcl | getNextAvailRes hcl _ | register hcl _ _ | endUnknown hcl _ _ | cleared hcl _ |
      append hcl | parse hcl _ _ | submitDoc hcl _ | peekedNone hcl _ | peeked hcl _ | read hcl _ _ | dequeued hcl _ =>
    refine h.frame (by rfl) ?_
    rw [counted_eq (s := s) (by rw [hcl]; exact nofun)]
    exact counted_eq nofun
  all_goals exact h

theorem counted (hr : run State.step State.init as = some s) (hd : DistinctCalls as) : Counted s := by
  refine run_induction (G := fun _ _ _ => True) (I := fun as s => DistinctCalls as → Counted s) (fun _ t _ k => ?_)
    (fun bs u a u' hbs _ ih hs hd => ?_) (meets_true _ _ _) hr hd
  · simp [counterOf, State.init, State.counted]
  · exact (step_move hs).counted (registry hbs hd.init) (ih hd.init)

omit [NeZero n] in
/-- **The thresholds searched** are those with a counter that is not 0. -/
theorem mem_searchKeys {counters : ThresholdCounters} {t : MatchType} (ht : t ≠ .exactMatch) {k : ℕ} :
    k ∈ searchKeys counters t ↔ counterOf counters t k ≠ 0 := by
  unfold searchKeys counterOf
  simp only [List.mem_map, List.mem_filter, Prod.exists, exists_and_right, exists_eq_right]
  constructor
  · intro h
    obtain ⟨c, hc, hne⟩ := h
    rw [(Table.mem_entries counters).1 hc]
    cases t <;> simp_all
  · intro h
    cases hget : counters.get k with
    | none => simp [hget] at h
    | some c =>
      refine ⟨c, (Table.mem_entries counters).2 hget, ?_⟩
      rw [hget] at h
      cases t <;> simp_all

omit [NeZero n] in
theorem Counted.searchKeys (h : Counted s) {t : MatchType} (ht : t ≠ .exactMatch) (k : ℕ) :
    k ∈ searchKeys s.thresholdCounters t ↔ ∃ q ∈ s.counted, q.isActive t k = true := by
  rw [mem_searchKeys ht, h t ht k, Ne, Int.natCast_eq_zero]
  exact Nat.pos_iff_ne_zero.symm.trans List.countP_pos_iff

/-! ## The number of active queries -/

omit [NeZero n] in
theorem startIds_typed (h : ∀ a ∈ as, a.Typed) : startIds as = (started as).map Asked.id := by
  induction as with
  | nil => rfl
  | cons a as ih =>
    have ih := ih fun b hb => h b (List.mem_cons_of_mem _ hb)
    have ha := h a List.mem_cons_self
    cases a with
    | startQuery id str t dist =>
      cases t with
      | none => cases ha
      | some t => exact congrArg (id :: ·) ih
    | _ => exact ih

theorem Move.activeQueries (hm : Move s a s') (hd : DistinctCalls (as ++ [a])) (htyped : ∀ b ∈ as ++ [a], b.Typed)
    (hends : EndsStarted (as ++ [a])) (h : s.activeQueries = (activeAfter as).length % 2 ^ 64) :
    s'.activeQueries = (activeAfter (as ++ [a])).length % 2 ^ 64 := by
  have hsame : s'.activeQueries = s.activeQueries → activeStep (activeAfter as) a = activeAfter as →
      s'.activeQueries = (activeAfter (as ++ [a])).length % 2 ^ 64 := by
    intro heq hstep
    rw [activeAfter_snoc, hstep, heq, h]
  cases hm
  case badQuery =>
    exact absurd (htyped _ (List.mem_append_right _ (List.mem_singleton_self _))) nofun
  case startQuery id str t dist ws hcl hw =>
    change (s.activeQueries + 1) % 2 ^ 64 = _
    rw [activeAfter_snoc, h, Nat.mod_add_mod]
    simp [activeStep, Act.asked]
  case endQuery id hcl =>
    change (s.activeQueries + (2 ^ 64 - 1)) % 2 ^ 64 = _
    have hstarted := hends.last
    rw [startIds_typed fun b hb => htyped b (List.mem_append_left _ hb)] at hstarted
    have hactive : id ∈ (activeAfter as).map Asked.id := by
      obtain ⟨q, hq, rfl⟩ := List.mem_map.1 hstarted
      exact List.mem_map_of_mem ((active_or_ended hq).resolve_right (hd.new_end rfl))
    have hlen := length_filter_ne hd.init.active_nodup hactive
    have hstep : activeAfter (as ++ [.endQuery id]) = (activeAfter as).filter fun q => q.id ≠ id := by
      rw [activeAfter_snoc]
      rfl
    rw [hstep, h, ← hlen]
    omega
  all_goals exact hsame (by rfl) (by rfl)

theorem activeQueries_eq (hr : run State.step State.init as = some s) (hd : DistinctCalls as)
    (htyped : ∀ a ∈ as, a.Typed) (hends : EndsStarted as) : s.activeQueries = (activeAfter as).length % 2 ^ 64 := by
  refine run_induction (G := fun _ _ _ => True) (I := fun as s => DistinctCalls as → (∀ a ∈ as, a.Typed) → EndsStarted as →
    s.activeQueries = (activeAfter as).length % 2 ^ 64) (fun _ _ _ => rfl) ?_ (meets_true _ _ _) hr hd htyped hends
  intro bs u a u' _ _ ih hs hd htyped hends
  exact (step_move hs).activeQueries hd htyped hends
    (ih hd.init (fun b hb => htyped b (List.mem_append_left _ hb)) hends.init)

omit [NeZero n] in
theorem filterMap_range {α : Type} (l : List α) : (List.range l.length).filterMap (fun i => l[i]?) = l := by
  induction l using List.reverseRecOn with
  | nil => rfl
  | append_singleton l x ih =>
    have hold : (List.range l.length).filterMap (fun i => (l ++ [x])[i]?) =
        (List.range l.length).filterMap fun i => l[i]? :=
      List.filterMap_congr fun i hi => List.getElem?_append_left (List.mem_range.1 hi)
    rw [List.length_append, List.length_singleton, List.range_succ, List.filterMap_append, hold, ih]
    simp

omit [NeZero n] in
/-- outside `StartQuery` the table has every query, once -/
theorem Registry.registered_perm (h : Registry as s) (hnew : s.client.newQuery = none) : s.registered.Perm s.heap := by
  have hget : ∀ e ∈ s.queries.entries, ∃ q, s.heap[e.2]? = some q ∧ q.id = e.1 :=
    fun e he => h.found e.1 e.2 ((Table.mem_entries s.queries).1 he)
  have hperm : (s.queries.entries.map Prod.snd).Perm (List.range s.heap.length) := by
    refine (List.perm_ext_iff_of_nodup ?_ List.nodup_range).2 fun p => ?_
    · refine List.Nodup.map_on (fun e he e' he' heq => ?_) (List.Nodup.of_map _ s.queries.keys_nodup)
      obtain ⟨q, hq, hid⟩ := hget e he
      obtain ⟨q', hq', hid'⟩ := hget e' he'
      rw [← heq, hq] at hq'
      cases hq'
      exact Prod.ext (hid.symm.trans hid') heq
    · rw [List.mem_map, List.mem_range]
      constructor
      · intro hp
        obtain ⟨e, he, rfl⟩ := hp
        obtain ⟨q, hq, -⟩ := hget e he
        exact (List.getElem?_eq_some_iff.1 hq).1
      · intro hp
        obtain ⟨q, hq⟩ : ∃ q, s.heap[p]? = some q := ⟨_, List.getElem?_eq_getElem hp⟩
        have hreg := (h.registered p q hq).resolve_right (by rw [hnew]; exact nofun)
        exact ⟨(q.id, p), (Table.mem_entries s.queries).2 hreg, rfl⟩
  have hmap : s.registered = (s.queries.entries.map Prod.snd).filterMap fun p => s.heap[p]? := by
    rw [List.filterMap_map]
    rfl
  rw [hmap]
  exact (hperm.filterMap _).trans (List.Perm.of_eq (filterMap_range s.heap))

omit [NeZero n] in
/-- outside `EndQuery` the queries with the flag are those that the calls leave active -/
theorem Registry.countP_active (h : Registry as s) (hd : DistinctCalls as) (hend : s.client.endingId = none) :
    s.heap.countP Query.active = (activeAfter as).length := by
  have hperm : ((s.heap.filter Query.active).map Query.id).Perm ((activeAfter as).map Asked.id) := by
    refine (List.perm_ext_iff_of_nodup ?_ hd.active_nodup).2 fun x => ?_
    · have hnd : (s.heap.map Query.id).Nodup := by
        rw [h.ids]
        exact hd.starts.sublist (started_ids_sublist as)
      exact hnd.sublist (List.filter_sublist.map _)
    · constructor
      · intro hx
        obtain ⟨q, hq, rfl⟩ := List.mem_map.1 hx
        obtain ⟨hmem, hact⟩ := List.mem_filter.1 hq
        obtain ⟨p, hp⟩ := List.mem_iff_getElem?.1 hmem
        exact ((h.active p q hp).1 hact).resolve_right (by rw [hend]; exact nofun)
      · intro hx
        have hheap : x ∈ s.heap.map Query.id := by
          rw [h.ids]
          exact ((activeAfter_sublist as).map _).subset hx
        obtain ⟨q, hmem, rfl⟩ := List.mem_map.1 hheap
        obtain ⟨p, hp⟩ := List.mem_iff_getElem?.1 hmem
        exact List.mem_map_of_mem (List.mem_filter.2 ⟨hmem, (h.active p q hp).2 (.inl hx)⟩)
  have hlen := hperm.length_eq
  rwa [List.length_map, List.length_map, ← List.countP_eq_length_filter] at hlen

/-- outside `StartQuery` and `EndQuery` each counter is the number of registered active queries with its type and
threshold, `active_queries` is the number of registered active queries, and `match_queries` searches a threshold if and
only if there is such a query; inside these calls the counters are those of the queries counted so far, and `EndQuery`
finds the counter that it changes -/
structure CountersExact (s : State n) : Prop where
  between : s.client.newQuery = none → s.client.endingId = none →
    s.activeQueries = s.registered.countP Query.active ∧ ∀ t, t ≠ .exactMatch → ∀ k,
      counterOf s.thresholdCounters t k = s.registered.countP (Query.isActive t k) ∧
      (k ∈ searchKeys s.thresholdCounters t ↔ ∃ q ∈ s.registered, q.isActive t k = true)
  inside : ∀ t, t ≠ .exactMatch → ∀ k, counterOf s.thresholdCounters t k = s.counted.countP (Query.isActive t k) ∧
    (k ∈ searchKeys s.thresholdCounters t ↔ ∃ q ∈ s.counted, q.isActive t k = true)
  ending : ∀ id p q, s.client = .ending id → s.queries.get id = some p → s.heap[p]? = some q →
    q.matchType ≠ .exactMatch → ∃ c, s.thresholdCounters.get q.matchDist = some c

/-- the counter that `EndQuery` takes from -/
theorem counter_of_ending (hr : run State.step State.init as = some s) (hd : DistinctCalls as) {id p : ℕ} {q : Query}
    (hcl : s.client = .ending id) (hget : s.queries.get id = some p) (hq : s.heap[p]? = some q)
    (ht : q.matchType ≠ .exactMatch) : ∃ c, s.thresholdCounters.get q.matchDist = some c := by
  have hreg := registry hr hd
  obtain ⟨q₀, hq₀, hid⟩ := hreg.found id p hget
  cases hq.symm.trans hq₀
  have hheap : s.counted = s.heap := counted_eq (by rw [hcl]; exact nofun)
  exact (counted hr hd).get (hheap ▸ List.mem_of_getElem? hq) ((hreg.active p q hq).2 (.inr (by rw [hcl, hid]; rfl))) ht

/-- counters without bound are exact -/
theorem counters_of_run (hr : run State.step State.init as = some s) (hd : DistinctCalls as)
    (htyped : ∀ a ∈ as, a.Typed) (hends : EndsStarted as) (hids : ∀ id ∈ startIds as, id < 2 ^ 32) :
    CountersExact s := by
  have hreg := registry hr hd
  have hcount := counted hr hd
  refine ⟨fun hnew hend => ?_, fun t ht k => ⟨hcount t ht k, hcount.searchKeys ht k⟩, fun id p q hcl hget hq ht =>
    counter_of_ending hr hd hcl hget hq ht⟩
  have hperm := hreg.registered_perm hnew
  have hheap : s.counted = s.heap := counted_eq fun p rest hc => by rw [hc] at hnew; cases hnew
  refine ⟨?_, fun t ht k => ⟨?_, ?_⟩⟩
  · -- the ids are distinct and of 32 bits, so the counter has not wrapped
    have hsmall : (activeAfter as).length ≤ 2 ^ 32 := by
      have hsub : (activeAfter as).map Asked.id ⊆ List.range (2 ^ 32) := fun id hid => List.mem_range.2 (hids id
        ((started_ids_sublist as).subset (((activeAfter_sublist as).map _).subset hid)))
      have hle := (hd.active_nodup.subperm hsub).length_le
      rwa [List.length_map, List.length_range] at hle
    rw [hperm.countP_eq, hreg.countP_active hd hend, activeQueries_eq hr hd htyped hends, Nat.mod_eq_of_lt (by omega)]
  · rw [hcount t ht k, hheap, hperm.countP_eq]
  · rw [hcount.searchKeys ht k, hheap]
    exact ⟨fun ⟨q, hq, h⟩ => ⟨q, hperm.mem_iff.2 hq, h⟩, fun ⟨q, hq, h⟩ => ⟨q, hperm.mem_iff.1 hq, h⟩⟩

end Counters

/-! ## Failed calls -/

section Failed

variable {n : ℕ} {s s' t : State n} {a : Act n} {as bs : List (Act n)}

def Act.IsCall : Act n → Prop
  | .startQuery _ _ _ _ | .endQuery _ | .matchDocument _ _ | .getNextAvailRes => True
  | _ => False

/-- a call of `StartQuery` or `EndQuery` -/
def Act.IsQueryCall : Act n → Prop
  | .startQuery _ _ _ _ | .endQuery _ => True
  | _ => False

/-- the tables of the queries are as they were -/
def SameTables (s t : State n) : Prop :=
  t.queries = s.queries ∧ t.heap = s.heap ∧ t.thresholdCounters = s.thresholdCounters

/-- the engine is as it was -/
def Unchanged (s t : State n) : Prop := t.activeQueries = s.activeQueries ∧ SameTables s t ∧ t.index = s.index

/-- a call of `StartQuery` or `EndQuery` that was made in `s`: it goes on, or it has returned -/
inductive CallPhase (s u : State n) : Prop where
  | starting (hc : u.client.newQuery ≠ none) (hr : u.replies = s.replies)
  | ending (hc : u.client.endingId ≠ none) (hr : u.replies = s.replies) (hsame : SameTables s u)
  | failed (hc : u.client = .idle) (hr : u.replies = s.replies ++ [.code .fail]) (hsame : SameTables s u)
  | succeeded (hc : u.client = .idle) (hr : u.replies = s.replies ++ [.code .success])

variable [NeZero n]

theorem Move.callPhase {u u' : State n} (hm : Move u a u') (ha : ¬ a.IsCall) (h : CallPhase s u) : CallPhase s u' := by
  cases hm
  case badQuery | startQuery | endQuery | matchDocument | getNextAvailRes => exact absurd trivial ha
  case submitJob hcl | count hcl _ =>
    rcases h with ⟨-, hr⟩ | ⟨hc, -, -⟩ | ⟨hc, -, -⟩ | ⟨hc, -⟩
    · exact .starting nofun hr
    all_goals
      rw [hcl] at hc
      exact absurd hc nofun
  case register hcl _ _ =>
    rcases h with ⟨-, hr⟩ | ⟨hc, -, -⟩ | ⟨hc, -, -⟩ | ⟨hc, -⟩
    · exact .succeeded rfl (congrArg (· ++ [Reply.code .success]) hr)
    all_goals
      rw [hcl] at hc
      exact absurd hc nofun
  case endUnknown hcl _ _ =>
    rcases h with ⟨hc, -⟩ | ⟨-, hr, hsame⟩ | ⟨hc, -, -⟩ | ⟨hc, -⟩
    · rw [hcl] at hc
      exact absurd rfl hc
    · exact .failed rfl (congrArg (· ++ [Reply.code .fail]) hr) hsame
    all_goals
      rw [hcl] at hc
      cases hc
  case ended hcl _ _ _ =>
    rcases h with ⟨hc, -⟩ | ⟨-, hr, -⟩ | ⟨hc, -, -⟩ | ⟨hc, -⟩
    · rw [hcl] at hc
      exact absurd rfl hc
    · exact .succeeded rfl (congrArg (· ++ [Reply.code .success]) hr)
    all_goals
      rw [hcl] at hc
      cases hc
  case cleared hcl _ | append hcl | parse hcl _ _ | submitDoc hcl _ | peekedNone hcl _ | peeked hcl _ | read hcl _ _ |
      dequeued hcl _ =>
    rcases h with ⟨hc, -⟩ | ⟨hc, -, -⟩ | ⟨hc, -, -⟩ | ⟨hc, -⟩
    all_goals
      rw [hcl] at hc
      exact absurd hc nofun
  all_goals
    rcases h with ⟨hc, hr⟩ | ⟨hc, hr, hsame⟩ | ⟨hc, hr, hsame⟩ | ⟨hc, hr⟩
    · exact .starting hc hr
    · exact .ending hc hr hsame
    · exact .failed hc hr hsame
    · exact .succeeded hc hr

/-- only the start of a call writes to `active_queries` -/
theorem Move.activeQueries_same (hm : Move s a s') (ha : ¬ a.IsCall) : s'.activeQueries = s.activeQueries := by
  cases hm
  case badQuery | startQuery | endQuery | matchDocument | getNextAvailRes => exact absurd trivial ha
  all_goals rfl

/-- the steps until the call returns -/
theorem callPhase_run (hbs : ∀ b ∈ bs, ¬ b.IsCall) {u : State n} (hr : run State.step u bs = some t)
    (h : CallPhase s u) : CallPhase s t ∧ t.activeQueries = u.activeQueries := by
  refine run_induction (G := fun _ _ b => ¬ b.IsCall) (I := fun _ v => CallPhase s v ∧ v.activeQueries = u.activeQueries)
    ⟨h, rfl⟩ (fun _ v b v' _ hb hv hs => ?_) (fun pre b post _ heq _ => ?_) hr
  · exact ⟨(step_move hs).callPhase hb hv.1, ((step_move hs).activeQueries_same hb).trans hv.2⟩
  · exact hbs b (heq ▸ List.mem_append_right _ List.mem_cons_self)

theorem add_mod_ne (x : ℕ) {k : ℕ} (h0 : 0 < k) (hk : k < 2 ^ 64) : (x + k) % 2 ^ 64 ≠ x := by
  intro heq
  have hlt : x < 2 ^ 64 := heq ▸ Nat.mod_lt _ (by decide)
  omega

/-- **A failed call drifts.** Whenever `StartQuery` or `EndQuery` returns `EC_FAIL`, the tables are as before the call, but
`active_queries` is one more, or one less. -/
theorem failed_call_drifts (ha : a.IsQueryCall) (hbs : ∀ b ∈ bs, ¬ b.IsCall)
    (hr : run State.step s (a :: bs) = some t) (hidle : t.client = .idle)
    (hfail : t.replies = s.replies ++ [.code .fail]) :
    ¬ Unchanged s t ∧ SameTables s t ∧ (t.activeQueries = (s.activeQueries + 1) % 2 ^ 64 ∧ a.endId = none ∨
      t.activeQueries = (s.activeQueries + (2 ^ 64 - 1)) % 2 ^ 64 ∧ a.startId = none) := by
  obtain ⟨u, hu, hrest⟩ := Option.bind_eq_some_iff.1 hr
  have hm := step_move hu
  -- the first step of the call counts it
  have hfirst : CallPhase s u ∧ (u.activeQueries = (s.activeQueries + 1) % 2 ^ 64 ∧ a.endId = none ∨
      u.activeQueries = (s.activeQueries + (2 ^ 64 - 1)) % 2 ^ 64 ∧ a.startId = none) := by
    cases hm
    case badQuery => exact ⟨.failed rfl rfl ⟨rfl, rfl, rfl⟩, .inl ⟨rfl, rfl⟩⟩
    case startQuery => exact ⟨.starting nofun rfl, .inl ⟨rfl, rfl⟩⟩
    case endQuery => exact ⟨.ending nofun rfl ⟨rfl, rfl, rfl⟩, .inr ⟨rfl, rfl⟩⟩
    all_goals exact ha.elim
  obtain ⟨hphase, hactive⟩ := hfirst
  obtain ⟨hend, hsame⟩ := callPhase_run hbs hrest hphase
  have htables : SameTables s t := by
    rcases hend with ⟨hc, -⟩ | ⟨hc, -, -⟩ | ⟨-, -, hsame⟩ | ⟨-, hr⟩
    · rw [hidle] at hc
      exact absurd rfl hc
    · rw [hidle] at hc
      exact absurd rfl hc
    · exact hsame
    · rw [hr] at hfail
      cases List.append_cancel_left hfail
  rw [hsame]
  refine ⟨fun hun => ?_, htables, hactive⟩
  have heq := hsame.symm.trans hun.1
  rcases hactive with ⟨h1, -⟩ | ⟨h1, -⟩
  · exact add_mod_ne s.activeQueries (by decide) (by decide) (h1.symm.trans heq)
  · exact add_mod_ne s.activeQueries (by decide) (by decide) (h1.symm.trans heq)

/-- `EndQuery` of an id that is not registered, as the first call -/
theorem failed_call_drifts_first : ∃ t, run State.step (State.init : State 1) [.endQuery 5, .client fun _ => true] = some t ∧
    t.replies = [.code .fail] ∧ ¬ Unchanged State.init t := by
  have hobs : (run State.step (State.init : State 1) [.endQuery 5, .client fun _ => true]).map
      (fun t => (t.client, t.replies)) = some (.idle, [.code .fail]) := by decide +kernel
  obtain ⟨t, ht, heq⟩ := Option.map_eq_some_iff.1 hobs
  simp only [Prod.mk.injEq] at heq
  have hbs : ∀ b ∈ [(.client fun _ => true : Act 1)], ¬ b.IsCall := by simp [Act.IsCall]
  exact ⟨t, ht, heq.2, (failed_call_drifts (a := .endQuery 5) trivial hbs ht heq.1 heq.2).1⟩

/-- it takes the counter below zero -/
theorem failed_call_wraps : ¬ ∀ (as bs : List (Act 1)) (a : Act 1) s t, run State.step State.init as = some s →
    a.IsQueryCall → (∀ b ∈ bs, ¬ b.IsCall) → run State.step s (a :: bs) = some t → t.client = .idle →
    t.replies = s.replies ++ [.code .fail] → Unchanged s t := by
  intro hclaim
  have hobs : (run State.step (State.init : State 1) [.endQuery 5, .client fun _ => true]).map
      (fun t => (t.client, t.replies, t.activeQueries)) = some (.idle, [.code .fail], 2 ^ 64 - 1) := by decide +kernel
  obtain ⟨t, ht, heq⟩ := Option.map_eq_some_iff.1 hobs
  simp only [Prod.mk.injEq] at heq
  have hbs : ∀ b ∈ [(.client fun _ => true : Act 1)], ¬ b.IsCall := by simp [Act.IsCall]
  obtain ⟨hactive, -⟩ := hclaim [] _ (.endQuery 5) _ t rfl trivial hbs ht heq.1 heq.2.1
  rw [heq.2.2] at hactive
  exact absurd hactive (by decide)

end Failed

end K23Search.Core
