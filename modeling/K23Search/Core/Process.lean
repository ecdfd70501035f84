/-
The exception of `MatchDocument` (core.cpp). The call locks the mutex of `docs` by hand and makes the record of its
document, with a table for `active_queries / 2` results. When that is negative as an `int`, the table asks for
`new key_pair[2^64 - k]`, which throws `bad_array_new_length`: the call ends without a record and with the mutex locked.
`Process` is the engine, with its `int` counters, that does this; a client may catch the exception and go on. An
allocation that fails for want of memory is left out.

Results:
- `run_engine`: a run without exception is a run of the engine, so that what is proved of those holds of it
  (`ProcessRuns`);
- `accounted`: every document passed to `MatchDocument` is submitted, in the hand of its call, or one of those that
  threw;
- `no_document_lost_iff`: no document is lost if and only if no call of `MatchDocument` throws.
Counterexample:
- `document_thrown`: a document after an `EndQuery` of an id that is not registered.
-/
import K23Search.Core.Counters
import K23Search.Core.Delivery

namespace K23Search.Core

open K23Search.Lib K23Search.Text

variable {n : ℕ}

/-! ## Model -/

structure Process (n : ℕ) where
  engine : State n
  /-- the mutex of `docs` belongs to a call that has ended -/
  docsLocked : Bool
  /-- the documents of the calls that threw -/
  thrown : List ℕ

/-- `new key_pair[...]` in `hash_table(capacity)`: an array of 2^63 bytes, 8 for each pair, is too long -/
def keysThrow (capacity : ℕ) : Bool := 2 ^ 63 ≤ 8 * HashTable.findPrime (HashTable.castInt capacity)

namespace State

/-- the steps that lock the mutex of `docs` -/
def locksDocs (s : State n) : Act n → Bool
  | .client _ =>
    match s.client with
    | .appending _ _ => true
    | _ => false
  | .work i _ =>
    match s.docRun i with
    | some (_, ⟨.unlinking, _, _⟩) => true
    | _ => false
  | _ => false

/-- the document of a call of `MatchDocument` that throws in the step -/
def throws (s : State n) : Act n → Option ℕ
  | .client _ =>
    match s.client with
    | .appending docId _ => if keysThrow (s.activeQueries / 2) then some docId else none
    | _ => none
  | _ => none

end State

namespace Process

def init [NeZero n] : Process n := ⟨State.init, false, []⟩

def step [NeZero n] (p : Process n) (a : Act n) : Option (Process n) :=
  if p.docsLocked && p.engine.locksDocs a then none
  else match p.engine.throws a with
    | some docId => some ⟨{ p.engine with client := .idle }, true, p.thrown ++ [docId]⟩
    | none => (p.engine.stepInt a).map fun s => { p with engine := s }

/-- a call of `MatchDocument` that makes a record finds `active_queries / 2` not negative as an `int` -/
def Allocates (p : Process n) (a : Act n) : Prop :=
  ∀ woken docId docStr, a = .client woken → p.engine.client = .appending docId docStr →
    p.engine.activeQueries / 2 % 2 ^ 32 < 2 ^ 31

end Process

/-! ## Steps -/

section Steps

theorem findPrime_lt {k : ℕ} (h : k < 2 ^ 31) : HashTable.findPrime k < 2 ^ 31 := by
  unfold HashTable.findPrime
  cases hfind : HashTable.primes.find? fun p => k < p with
  | none => exact h
  | some p =>
    have hall : ∀ p ∈ HashTable.primes, p < 2 ^ 31 := by decide
    exact hall p (List.mem_of_find?_eq_some hfind)

theorem keysThrow_iff (capacity : ℕ) : keysThrow capacity = true ↔ ¬ capacity % 2 ^ 32 < 2 ^ 31 := by
  unfold keysThrow HashTable.castInt
  rw [decide_eq_true_eq]
  split
  · next h =>
    have := findPrime_lt h
    exact iff_of_false (by omega) fun hno => hno h
  · next h =>
    have hge := (HashTable.findPrime_ge (2 ^ 64 - 2 ^ 32 + capacity % 2 ^ 32)).1
    exact iff_of_true (by omega) h

/-- a call of `MatchDocument` throws -/
theorem throws_iff (p : Process n) (a : Act n) : p.engine.throws a = none ↔ p.Allocates a := by
  unfold State.throws Process.Allocates
  split
  · next woken =>
    split
    · next docId docStr hcl =>
      by_cases hthrow : keysThrow (p.engine.activeQueries / 2) = true
      · rw [if_pos hthrow]
        exact iff_of_false nofun fun h => (keysThrow_iff _).1 hthrow (h woken docId docStr rfl hcl)
      · rw [if_neg hthrow]
        refine iff_of_true rfl fun _ _ _ _ _ => ?_
        by_contra hno
        exact hthrow ((keysThrow_iff _).2 hno)
    · next hno => exact iff_of_true rfl fun _ docId docStr _ hcl => absurd hcl (hno docId docStr)
  · next hno => exact iff_of_true rfl fun woken _ _ ha => absurd ha (hno woken)

variable [NeZero n] {p p' : Process n} {a : Act n}

/-- **What a step can do**: a step of the engine, or an exception -/
theorem Process.step_cases (h : p.step a = some p') :
    (p.Allocates a ∧ ∃ s, p.engine.step a = some s ∧ p' = { p with engine := s }) ∨
      ∃ docId docStr, p.engine.client = .appending docId docStr ∧ ¬ p.Allocates a ∧
        p' = ⟨{ p.engine with client := .idle }, true, p.thrown ++ [docId]⟩ ∧ a.document = none := by
  unfold Process.step at h
  split at h
  · cases h
  · split at h
    · next docId hthrow =>
      have hno : ¬ p.Allocates a := fun hall => by
        rw [(throws_iff p a).2 hall] at hthrow
        cases hthrow
      unfold State.throws at hthrow
      split at hthrow
      · split at hthrow
        · next d docStr hcl =>
          split at hthrow
          · cases hthrow
            exact .inr ⟨docId, docStr, hcl, hno, (Option.some.inj h).symm, rfl⟩
          · cases hthrow
        · cases hthrow
      · cases hthrow
    · next hthrow =>
      obtain ⟨s, hs, rfl⟩ := Option.map_eq_some_iff.1 h
      exact .inl ⟨(throws_iff p a).1 hthrow, s, (guarded_some.1 hs).2, rfl⟩

end Steps

/-! ## Runs of the engine -/

section Runs

variable [NeZero n] {p p' : Process n} {a : Act n} {as : List (Act n)}

/-- a part of a run in which nothing was thrown is a run of the engine, and leaves the mutex of `docs` alone -/
theorem run_engine_from {q : Process n} (hr : run Process.step p as = some q) (hnone : q.thrown = []) :
    p.thrown = [] ∧ run State.step p.engine as = some q.engine ∧ q.docsLocked = p.docsLocked := by
  induction as using List.reverseRecOn generalizing q with
  | nil =>
    cases hr
    exact ⟨hnone, rfl, rfl⟩
  | append_singleton as a ih =>
    obtain ⟨u, hu, ha⟩ := run_snoc_some hr
    rcases Process.step_cases ha with ⟨-, s, hs, rfl⟩ | ⟨docId, docStr, -, -, rfl, -⟩
    · obtain ⟨hp, hrun, hlock⟩ := ih hu hnone
      exact ⟨hp, by rw [run_snoc, hrun]; exact hs, hlock⟩
    · simp at hnone

/-- a run in which nothing was thrown is a run of the engine, with the mutex of `docs` free for every step -/
theorem run_engine (hr : run Process.step Process.init as = some p) (hnone : p.thrown = []) :
    run State.step State.init as = some p.engine ∧ p.docsLocked = false :=
  (run_engine_from hr hnone).2

end Runs

/-! ## Documents -/

section Documents

variable {s : State n} {as bs : List (Act n)}

/-- the call of `MatchDocument` ends without a record -/
theorem Way.throw (h : Way as s) {docId : ℕ} {docStr : List UInt8} (hcl : s.client = .appending docId docStr)
    (hdocs : (documents bs).map Prod.fst = s.submitted) : Way bs { s with client := .idle } where
  control := h.control
  starting := fun p rest hc => by cases hc
  nodes := by
    have hnodes := h.nodes
    unfold Nodes at hnodes ⊢
    rw [hcl] at hnodes
    exact (congrArg (· + _) (before_congr (by rfl) (by rfl) (by rfl))).trans hnodes
  calls := h.calls.client_frame rfl (fun _ _ hp => by rwa [hcl] at hp) rfl (fun _ => rfl) (by simp) (fun _ => id) rfl
    (.inl rfl)
  conserved := h.conserved.same (fun _ => before_congr (by rfl) (by rfl) (by rfl)) (by rfl) (by rfl)
    (returned_same (by simp [hcl]) (by simp) (.inl (by rfl))) (by rfl)
  submitted := hdocs.trans (List.append_nil _).symm

/-- calls of `MatchDocument` for these documents -/
theorem documents_of_ids (n : ℕ) (ds : List ℕ) :
    (documents (ds.map fun d => (.matchDocument d [] : Act n))).map Prod.fst = ds := by
  induction ds with
  | nil => rfl
  | cons d ds ih => exact congrArg (d :: ·) ih

variable [NeZero n] {p : Process n}

/-- **Every document is accounted for**: the calls that did not throw made their way, and those that threw are kept. -/
theorem accounted (hr : run Process.step Process.init as = some p) : ∃ bs, Way bs p.engine ∧
    ((documents as).map Prod.fst).Perm ((documents bs).map Prod.fst ++ p.thrown) ∧ (p.thrown = [] → bs = as) := by
  induction as using List.reverseRecOn generalizing p with
  | nil =>
    cases hr
    exact ⟨[], way_init, .refl _, fun _ => rfl⟩
  | append_singleton as a ih =>
    obtain ⟨u, hu, ha⟩ := run_snoc_some hr
    obtain ⟨bs, hway, hperm, hsame⟩ := ih hu
    rcases Process.step_cases ha with ⟨-, s, hs, rfl⟩ | ⟨docId, docStr, hcl, -, rfl, hdoc⟩
    · refine ⟨bs ++ [a], way_step hway (step_move hs), ?_, fun hnil => by rw [hsame hnil]⟩
      rw [documents_snoc, documents_snoc, List.map_append, List.map_append]
      refine (hperm.append_right _).trans ?_
      rw [List.append_assoc, List.append_assoc]
      exact List.perm_append_comm.append_left _
    · refine ⟨_, hway.throw hcl (documents_of_ids n u.engine.submitted), ?_, fun hnil => by simp at hnil⟩
      have hhand : (documents bs).map Prod.fst = u.engine.submitted ++ [docId] := by
        rw [hway.submitted, State.inHand, hcl]
      rw [documents_none as hdoc, documents_of_ids]
      refine hperm.trans ?_
      rw [hhand, List.append_assoc]
      exact List.perm_append_comm.append_left _

/-- a document is thrown exactly when a call finds `active_queries / 2` negative -/
theorem thrown_iff (hr : run Process.step Process.init as = some p) :
    p.thrown = [] ↔ Meets Process.step Process.init (fun _ u a => u.Allocates a) as := by
  induction as using List.reverseRecOn generalizing p with
  | nil =>
    cases hr
    exact iff_of_true rfl fun pre a post u hu => by simp at hu
  | append_singleton as a ih =>
    obtain ⟨u, hu, ha⟩ := run_snoc_some hr
    rcases Process.step_cases ha with ⟨hall, s, -, rfl⟩ | ⟨docId, docStr, -, hno, rfl, -⟩
    · refine (ih hu).trans ⟨fun hm => hm.snoc fun v hv => ?_, fun hm => hm.init⟩
      rw [Option.some.inj (hv.symm.trans hu)]
      exact hall
    · exact iff_of_false (by simp) fun hm => hno (hm.last hu)

/-- **No document is lost or delivered twice**, exactly when no call of `MatchDocument` finds `active_queries / 2`
negative as an `int`: then every document is submitted or in the hand of its call, and each submitted one is in one
place. Otherwise what is submitted is in its place still, and the other documents are those of the calls that threw.
(A run ends at a step that is undefined in the source: a search with the subscript of a word of 31 letters, a counter
that overflows.) -/
theorem no_document_lost_iff (hr : run Process.step Process.init as = some p)
    (hd : ((documents as).map Prod.fst).Nodup) :
    ((Submitted as p.engine ∧ Placed p.engine) ↔
      Meets Process.step Process.init (fun _ u a => u.Allocates a) as) ∧
    Placed p.engine ∧
    ((documents as).map Prod.fst).Perm (p.engine.submitted ++ p.engine.inHand ++ p.thrown) := by
  obtain ⟨bs, hway, hperm, hsame⟩ := accounted hr
  have hplaced : Placed p.engine := by
    apply hway.placed
    exact (List.nodup_append.1 (hperm.nodup_iff.1 hd)).1
  rw [← thrown_iff hr, ← hway.submitted]
  refine ⟨⟨fun h => ?_, fun hnil => ⟨hsame hnil ▸ hway.submitted, hplaced⟩⟩, hplaced, hperm⟩
  have hlen := hperm.length_eq
  rw [h.1, ← hway.submitted, List.length_append] at hlen
  exact List.length_eq_zero_iff.1 (by omega)

theorem no_document_lost_one : ∃ p, run Process.step Process.init oneDocument = some p ∧ 7 ∈ p.engine.submitted ∧
    p.thrown = [] ∧ ∃! place, 7 ∈ p.engine.docsAt place := by
  have hobs : (run Process.step Process.init oneDocument).map (fun p => (p.engine.submitted, p.thrown)) =
      some ([7], []) := by decide +kernel
  obtain ⟨p, hp, heq⟩ := Option.map_eq_some_iff.1 hobs
  simp only [Prod.mk.injEq] at heq
  have hmem : 7 ∈ p.engine.submitted := by rw [heq.1]; exact List.mem_singleton_self 7
  exact ⟨p, hp, hmem, heq.2, (no_document_lost_iff hp (by decide)).2.1.place 7 hmem⟩

/-- **A lost document.** After an `EndQuery` of an id that is not registered, `MatchDocument` throws: its document is
nowhere, and the mutex of `docs` stays locked. -/
theorem document_thrown : ∃ p : Process 1, run Process.step Process.init
      [.endQuery 5, .client fun _ => true, .matchDocument 7 [97, 98, 99, 100], .client fun _ => true] = some p ∧
    p.engine.client = .idle ∧ p.docsLocked = true ∧ 7 ∉ p.engine.submitted ∧ ∀ place, 7 ∉ p.engine.docsAt place := by
  have hobs : (run Process.step (Process.init : Process 1)
      [.endQuery 5, .client fun _ => true, .matchDocument 7 [97, 98, 99, 100], .client fun _ => true]).map
      (fun p => (p.engine.client, p.docsLocked, p.engine.submitted)) = some (.idle, true, []) := by decide +kernel
  obtain ⟨p, hp, heq⟩ := Option.map_eq_some_iff.1 hobs
  simp only [Prod.mk.injEq] at heq
  obtain ⟨bs, hway, hperm, -⟩ := accounted hp
  have hnone : 7 ∉ p.engine.submitted := by rw [heq.2.2]; exact List.not_mem_nil
  have hnodup : ((documents bs).map Prod.fst).Nodup := (List.nodup_append.1 (hperm.nodup_iff.1 (by decide))).1
  exact ⟨p, hp, heq.1, heq.2.1, hnone, fun place hmem => hnone ((hway.placed hnodup).once place 7 hmem).1⟩

end Documents

end K23Search.Core
