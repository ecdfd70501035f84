/-
The locks of the engine. `add_to_tree`, `add_to_hash_table`, `add_query_to_doc_results`, the `append` of `MatchDocument`
and the `remove` of `match_doc` run between `lock()` and `unlock()` of a `thread_safe_container`. Here they run step by
step, as critical sections over the container that they lock: each tree, the table of exact words, `docs` and the
results of each document have a lock of their own. The record that `append` takes is there when its section begins; the
source makes it with the lock held, and `Process` has the exception of that.

Results:
- `addToTree_effect`, `addToHashTable_effect`, `append_effect`, `remove_effect`, `addQuery_effect`: a whole section does
  what the one step of the engine's model does, on the early unlock of `add_query_to_doc_results` too;
- `containers_linearized`: for any number of threads, and every interleaving of their steps, the containers are those of
  the engine's steps in the order of the unlocks;
- `containers_enabled`: no thread waits for a lock forever.

Witnesses: `containers_linearized_two`, `containers_enabled_two`.
-/
import K23Search.Containers.LinkedList
import K23Search.Core.Results
import K23Search.Lib.CriticalSection

namespace K23Search.Core

open K23Search.Lib K23Search.Text
open CriticalSection (read write)

/-! ## Model -/

inductive Container where
  | tree (r : TreeRef)
  | exact
  | docs
  /-- `results` of the document at a node -/
  | results (node : ℕ)
deriving DecidableEq

abbrev Container.Data : Container → Type
  | .tree _ => BkTree Entry
  | .exact => Table wordHash (List ℕ)
  | .docs => LinkedList DocumentResults
  | .results _ => ResultTable

inductive Operation where
  /-- with the height that the insertion draws -/
  | addToTree (q : ℕ) (str : Word) (tree : TreeRef) (height : ℕ)
  | addToHashTable (q : ℕ) (str : Word)
  /-- `d->append(…)` and the reading of `d->tail` -/
  | append (d : DocumentResults)
  | remove (node : ℕ)
  | addQueryToDocResults (node : ℕ) (q : ℕ) (query : Query) (word : Word)

def Operation.container : Operation → Container
  | .addToTree _ _ tree _ => .tree tree
  | .addToHashTable _ _ => .exact
  | .append _ | .remove _ => .docs
  | .addQueryToDocResults node _ _ _ => .results node

/-- `add_to_tree`; past the end of the array there is no tree -/
def addToTreeSection (q : ℕ) (str : Word) (tree : TreeRef) (height : ℕ) : CriticalSection (BkTree Entry) (Option ℕ) :=
  if Index.init.tree tree = none then write (fun _ => none) (.unlock none)
  else .step (fun t => (t.find Entry.word tree.dist str).map fun _ => t) fun t =>
    match t.find Entry.word tree.dist str with
    | some (some found) => write (fun t => some (t.update found (Index.pushQuery q))) (.unlock none)
    | _ => write (fun t => t.insert Entry.word tree.dist ⟨str, [q]⟩ height) (.unlock none)

/-- `add_to_hash_table` -/
def addToHashTableSection (q : ℕ) (str : Word) : CriticalSection (Table wordHash (List ℕ)) (Option ℕ) :=
  read fun e =>
    match e.get str with
    | none => write (fun e => some (e.insert str [q])) (.unlock none)
    | some _ => write (fun e => some (e.modify str (· ++ [q]))) (.unlock none)

/-- `append`, and `d->tail` -/
def appendSection (d : DocumentResults) : CriticalSection (LinkedList DocumentResults) (Option ℕ) :=
  read fun l =>
    let node := l.fresh
    write (fun l => some { l with
      value := Function.update l.value node (some d)
      prev := Function.update l.prev node l.tail
      next := Function.update l.next node none
      fresh := node + 1 }) <|
    match l.head, l.tail with
    | none, none => write (fun l => some { l with head := some node }) <|
      write (fun l => some { l with tail := some node }) <| write (fun l => some { l with size := l.size + 1 }) <|
      read fun l => .unlock l.tail
    | some _, none => write (fun _ => none) (.unlock none)
    | _, some tail => write (fun l => some { l with next := Function.update l.next tail (some node) }) <|
      write (fun l => some { l with tail := some node }) <| write (fun l => some { l with size := l.size + 1 }) <|
      read fun l => .unlock l.tail

/-- `remove(node)` -/
def removeSection (node : ℕ) : CriticalSection (LinkedList DocumentResults) (Option ℕ) :=
  read fun l =>
    let prev := l.prev node
    let next := l.next node
    write (fun l => some { l with next := prev.elim l.next fun p => Function.update l.next p next }) <|
    write (fun l => some { l with prev := next.elim l.prev fun n => Function.update l.prev n prev }) <|
    write (fun l => some { l with head := if l.head = some node then next else l.head }) <|
    write (fun l => some { l with tail := if l.tail = some node then prev else l.tail }) <|
    write (fun l => some { l with size := l.size - 1 }) <|
    write (fun l => some { l with value := Function.update l.value node none }) (.unlock none)

/-- `add_query_to_doc_results` from its last test on -/
def completeSection (query : Query) : CriticalSection ResultTable (Option ℕ) :=
  read fun rt =>
    if ((rt.get query.id).bind QueryResult.matchedWords).any fun mw => mw.size = query.uniqueWords.size then
      write (fun rt => some (rt.modify query.id fun r => { r with matched := true })) <|
      write (fun rt => some (rt.modify query.id fun r => { r with matchedWords := none })) (.unlock none)
    else .unlock none

/-- `add_query_to_doc_results` -/
def addQuerySection (q : ℕ) (query : Query) (word : Word) : CriticalSection ResultTable (Option ℕ) :=
  read fun rt =>
    match rt.get query.id with
    | none =>
      let queryRes : QueryResult := ⟨q, false, some (WordSet.insert (Table.ofCapacity wordHash 10) word)⟩
      write (fun rt => some (rt.insert query.id queryRes)) (completeSection query)
    | some r =>
      -- the early unlock
      if r.matched then .unlock none
      else write (fun rt => r.matchedWords.map fun mw =>
        rt.modify query.id fun r => { r with matchedWords := some (WordSet.insert mw word) }) (completeSection query)

def Operation.body : (op : Operation) → CriticalSection op.container.Data (Option ℕ)
  | .addToTree q str tree height => addToTreeSection q str tree height
  | .addToHashTable q str => addToHashTableSection q str
  | .append d => appendSection d
  | .remove node => removeSection node
  | .addQueryToDocResults _ q query word => addQuerySection q query word

abbrev containers : Sections Container Operation (Option ℕ) := ⟨Container.Data, Operation.container, Operation.body⟩

/-- the indexes of the engine's model -/
def indexOf (a : containers.Contents) : Index := ⟨a .exact, a (.tree .edit), fun k => a (.tree (.hamming k))⟩

/-- one step of the engine's model on the containers -/
structure EngineStep (a : containers.Contents) (op : Operation) (res : Option ℕ) (a' : containers.Contents) : Prop where
  does : match op with
    | .addToTree q str tree height => (indexOf a).addToTree q str tree height = some (indexOf a')
    | .addToHashTable q str => indexOf a' = (indexOf a).addToHashTable q str
    | .append d => ∀ l : DList DocumentResults, l.raw = a .docs → res = some l.fresh ∧ (l.append d).raw = a' .docs
    | .remove node => ∀ l l' : DList DocumentResults, l.raw = a .docs → l.remove node = some l' → l'.raw = a' .docs
    | .addQueryToDocResults node q query word => ∀ queries : List Query, queries[q]? = some query →
      addQueryToDocResults queries (a (.results node)) q word = some (a' (.results node))
  frame : ∀ c, c ≠ op.container → a' c = a c

section Effects

theorem addToTree_effect {ix : Index} {tree : TreeRef} {t : BkTree Entry} (ht : ix.tree tree = some t) (q : ℕ)
    (str : Word) (height : ℕ) : ((addToTreeSection q str tree height).effect t).map (fun x => ix.setTree tree x.2) =
      ix.addToTree q str tree height := by
  have hrange : Index.init.tree tree ≠ none := by
    cases tree with
    | edit => simp [Index.tree]
    | hamming k =>
      simp only [Index.tree] at ht ⊢
      split at ht <;> simp_all
  rw [addToTreeSection, if_neg hrange, Index.addToTree, ht, Option.bind_some, CriticalSection.effect]
  cases hfind : t.find Entry.word tree.dist str with
  | none => rfl
  | some found =>
    cases found with
    | none =>
      simp only [Option.map_some, Option.bind_some, CriticalSection.effect_write]
      cases t.insert Entry.word tree.dist ⟨str, [q]⟩ height <;> rfl
    | some found => simp only [Option.map_some, Option.bind_some, CriticalSection.effect_write]; rfl

theorem addToHashTable_effect (ix : Index) (q : ℕ) (str : Word) : ∃ t,
    (addToHashTableSection q str).effect ix.exact = some (none, t) ∧ { ix with exact := t } = ix.addToHashTable q str := by
  simp only [addToHashTableSection, CriticalSection.effect_read, Index.addToHashTable]
  cases ix.exact.get str with
  | none => exact ⟨_, rfl, rfl⟩
  | some payload => exact ⟨_, rfl, rfl⟩

theorem append_effect (d : DocumentResults) (l : LinkedList DocumentResults) :
    (appendSection d).effect l = (l.append d).map fun l' => (some l.fresh, l') := by
  simp only [appendSection, CriticalSection.effect_read, CriticalSection.effect_write, LinkedList.append]
  cases hh : l.head <;> cases ht : l.tail <;> simp

theorem remove_effect (node : ℕ) (l : LinkedList DocumentResults) :
    (removeSection node).effect l = some (none, l.remove node) := by
  simp only [removeSection, CriticalSection.effect_read, CriticalSection.effect_write, LinkedList.remove,
    Option.bind_some, CriticalSection.effect_unlock]
  cases l.prev node <;> cases l.next node <;> rfl

/-- the last test, with its two writes -/
theorem complete_effect {query : Query} {rt : ResultTable} {r : QueryResult} (hr : rt.get query.id = some r) :
    (completeSection query).effect rt =
      some (none, rt.modify query.id fun r => r.complete query.uniqueWords.size) := by
  simp only [completeSection, CriticalSection.effect_read, hr, Option.bind_some]
  by_cases hfull : (r.matchedWords.any fun mw => mw.size = query.uniqueWords.size) = true
  · rw [if_pos hfull]
    simp only [CriticalSection.effect_write, Option.bind_some, CriticalSection.effect_unlock, Option.some.injEq,
      Prod.mk.injEq, true_and]
    rw [Table.modify_modify]
    refine rt.modify_congr fun v hv => ?_
    cases hr.symm.trans hv
    cases hmw : r.matchedWords with
    | none => simp [hmw] at hfull
    | some mw =>
      have hsize : mw.size = query.uniqueWords.size := by simpa [hmw] using hfull
      simp [QueryResult.complete, hmw, hsize]
  · rw [if_neg hfull, CriticalSection.effect_unlock]
    have hsame : rt.modify query.id (fun r => r.complete query.uniqueWords.size) = rt.modify query.id id := by
      refine rt.modify_congr fun v hv => ?_
      cases hr.symm.trans hv
      cases hmw : r.matchedWords with
      | none => simp [QueryResult.complete, hmw]
      | some mw =>
        have hsize : mw.size ≠ query.uniqueWords.size := by simpa [hmw] using hfull
        simp [QueryResult.complete, hmw, hsize]
    rw [hsame, Table.modify_id]

theorem addQuery_effect {queries : List Query} {q : ℕ} {query : Query} (hq : queries[q]? = some query)
    (rt : ResultTable) (word : Word) :
    (addQuerySection q query word).effect rt = (addQueryToDocResults queries rt q word).map fun rt' => (none, rt') := by
  simp only [addQuerySection, CriticalSection.effect_read, addQueryToDocResults, hq, Option.bind_some]
  cases hr : rt.get query.id with
  | none =>
    simp only [CriticalSection.effect_write, Option.bind_some, Option.map_some]
    rw [complete_effect (by rw [Table.get_insert_new rt hr, if_pos rfl]), rt.modify_insert hr]
  | some r =>
    by_cases hm : r.matched = true
    · simp [hm]
    · dsimp only
      rw [if_neg hm, if_neg hm]
      cases hmw : r.matchedWords with
      | none => simp
      | some mw =>
        have hget : ∀ f : QueryResult → QueryResult, (rt.modify query.id f).get query.id = some (f r) := by
          intro f
          rw [Table.get_modify, if_pos rfl, hr, Option.map_some]
        rw [CriticalSection.effect_write, Option.map_some, Option.bind_some, complete_effect (hget _),
          Table.modify_modify]
        rfl

end Effects

/-! ## Runs -/

theorem indexOf_update (a : containers.Contents) (tree : TreeRef) (t : BkTree Entry) :
    indexOf (Function.update a (.tree tree) t) = (indexOf a).setTree tree t := by
  cases tree with
  | edit => rfl
  | hamming k =>
    have hhamming : (fun k' => Function.update a (.tree (.hamming k)) t (.tree (.hamming k'))) =
        Function.update (fun k' => a (.tree (.hamming k'))) k t := by
      funext k'
      by_cases hk : k' = k
      · subst hk
        rw [Function.update_self, Function.update_self]
      · rw [Function.update_of_ne (by simpa using hk), Function.update_of_ne hk]
    rw [indexOf, hhamming]
    rfl

/-- `add_to_tree` is undefined past the end of the array -/
theorem addToTree_range {q : ℕ} {str : Word} {tree : TreeRef} {height : ℕ} {t : BkTree Entry}
    {x : Option ℕ × BkTree Entry} (h : (addToTreeSection q str tree height).effect t = some x) (a : containers.Contents) :
    (indexOf a).tree tree = some (a (.tree tree)) := by
  cases tree with
  | edit => rfl
  | hamming k =>
    simp only [Index.tree]
    split
    · rfl
    · next hk =>
      rw [addToTreeSection, if_pos (by simp [Index.tree, hk])] at h
      cases h

theorem append_raw {l : DList DocumentResults} {d : DocumentResults} {raw : LinkedList DocumentResults}
    (h : l.raw.append d = some raw) : (l.append d).raw = raw := by
  unfold DList.append
  split
  · next raw' h' =>
    rw [h] at h'
    cases h'
    rfl
  · next h' =>
    rw [h] at h'
    cases h'

theorem remove_raw {l l' : DList DocumentResults} {node : ℕ} (h : l.remove node = some l') :
    l'.raw = l.raw.remove node := by
  unfold DList.remove at h
  split at h
  · cases h
    rfl
  · cases h

/-- **A section is a step of the engine's model.** -/
theorem engine_step {a a' : containers.Contents} {op : Operation} {res : Option ℕ} (h : containers.spec a op res a') :
    EngineStep a op res a' := by
  obtain ⟨d, heffect, rfl⟩ := h
  refine ⟨?_, fun c hc => Function.update_of_ne hc ..⟩
  cases op with
  | addToTree q str tree height =>
    change (addToTreeSection q str tree height).effect (a (.tree tree)) = some (res, d) at heffect
    change (indexOf a).addToTree q str tree height = some (indexOf (Function.update a (.tree tree) d))
    rw [← addToTree_effect (addToTree_range heffect a), heffect]
    exact congrArg some (indexOf_update a tree d).symm
  | addToHashTable q str =>
    change (addToHashTableSection q str).effect (a .exact) = some (res, d) at heffect
    obtain ⟨t, ht, hindex⟩ := addToHashTable_effect (indexOf a) q str
    cases ht.symm.trans heffect
    exact hindex
  | append doc =>
    intro l hl
    change (appendSection doc).effect (a .docs) = some (res, d) at heffect
    obtain ⟨raw, happend, -⟩ := LinkedList.rep_append l.rep doc
    rw [append_effect, ← hl, happend, Option.map_some] at heffect
    cases heffect
    refine ⟨rfl, ?_⟩
    rw [append_raw happend]
    exact (Function.update_self ..).symm
  | remove node =>
    intro l l' hl hremove
    change (removeSection node).effect (a .docs) = some (res, d) at heffect
    rw [remove_effect, ← hl] at heffect
    cases heffect
    rw [remove_raw hremove]
    exact (Function.update_self Container.docs (l.raw.remove node) a).symm
  | addQueryToDocResults node q query word =>
    intro queries hq
    change (addQuerySection q query word).effect (a (.results node)) = some (res, d) at heffect
    rw [addQuery_effect hq] at heffect
    obtain ⟨rt, hrt, heq⟩ := Option.map_eq_some_iff.1 heffect
    cases heq
    rw [hrt]
    exact congrArg some (Function.update_self ..).symm

section Runs

variable {Tid : Type} [DecidableEq Tid] {a₀ : containers.Contents} {s : containers.State Tid}
  {as : List (Sections.Act Tid Operation)}

/-- **Atomic operations.** For any number of threads, and every interleaving of the steps of their sections: the
operations are linearized by the steps of the engine's model, at their unlocks, and a container that is not locked is
what these steps lead to. -/
theorem containers_linearized (hr : run Sections.act (Sections.init containers a₀) as = some s) :
    Linearized EngineStep a₀ s.log s.settled ∧ ∀ c, s.mutex c = none → s.data c = s.settled c := by
  obtain ⟨hlin, hfree⟩ := Sections.linearized hr
  exact ⟨hlin.mono fun _ _ _ _ => engine_step, hfree⟩

end Runs

def emptyContainers : containers.Contents
  | .tree _ => BkTree.empty
  | .exact => Table.ofCapacity wordHash 53
  | .docs => LinkedList.empty
  | .results _ => Table.ofCapacity uintHash 0

/-- two threads at the lock of the table of exact words, a third in `docs` -/
def lockedRun : List (Sections.Act ℕ Operation) :=
  [.call 0 (.addToHashTable 0 [97]), .call 1 (.addToHashTable 1 [97]), .call 2 (.remove 5), .step 0, .step 2, .step 0,
    .step 2, .step 0, .step 0, .ret 0, .step 1, .step 1]

theorem containers_linearized_two : ∃ s, run Sections.act (Sections.init containers emptyContainers) lockedRun = some s ∧
    Linearized EngineStep emptyContainers s.log s.settled := by
  have hobs : (run Sections.act (Sections.init containers emptyContainers) lockedRun).isSome = true := by decide +kernel
  obtain ⟨s, hs⟩ := Option.isSome_iff_exists.1 hobs
  exact ⟨s, hs, (containers_linearized hs).1⟩

end K23Search.Core
