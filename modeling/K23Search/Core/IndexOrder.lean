/-
Runs of insertions into one index, by `add_to_tree` or `add_to_hash_table`, from the empty index.

`Collected xs es` is the abstract index: `es` has every word of the insertions `xs` once, with the queries that were
inserted under it, in the order of the insertions. Every run refines it, whatever heights the skip lists draw; two runs
of the same insertions in different orders then hold the same words, with the same queries up to order, and their
searches agree, although the trees have different shapes.

Results:
- `find_complete`: `bk_tree::find` after any inserts, and no word has two nodes after any `add_to_tree` calls;
- `order_independent`: the index and its answers do not depend on the order of the insertions.
-/
import K23Search.Core.Index
import Mathlib.Data.Multiset.MapFold

namespace K23Search.Core

open K23Search.Lib K23Search.Text

/-! ## Model -/

/-- a call of `add_to_tree` or `add_to_hash_table`, with the height that the insertion draws -/
structure Insertion where
  query : ℕ
  word : Word
  height : ℕ
deriving Repr

def Insertion.posting (x : Insertion) : ℕ × Word := (x.query, x.word)

/-- the word of an entry and the multiset of its queries -/
def Entry.posting (e : Entry) : Word × Multiset ℕ := (e.word, e.payload)

namespace Index

def insertInto (slot : Slot) (ix : Index) (x : Insertion) : Option Index :=
  match slot with
  | .tree r => ix.addToTree x.query x.word r x.height
  | .exact => some (ix.addToHashTable x.query x.word)

/-- the entries of one index -/
def contents (ix : Index) (slot : Slot) : Option (List Entry) :=
  match slot with
  | .tree r => (ix.tree r).map fun t => t.nodes.map BkNode.data
  | .exact => some (ix.exact.entries.map fun e => ⟨e.1, e.2⟩)

/-- the entries that `match(threshold, w)` or `lookup(w)` finds -/
def found (ix : Index) (slot : Slot) (threshold : ℤ) (w : Word) : Option (List Entry) :=
  match slot with
  | .tree r => (ix.tree r).bind fun t => (t.match Entry.word r.dist threshold w).map fun nodes =>
    nodes.filterMap fun n => t.nodes[n]?.map BkNode.data
  | .exact => some ((ix.exact.get w).toList.map fun payload => ⟨w, payload⟩)

end Index

/-! ## The abstract index -/

/-- the queries inserted under a word, in order -/
def postedTo (xs : List Insertion) (w : Word) : List ℕ := (xs.filter fun x => x.word = w).map Insertion.query

/-- `es` is what the insertions `xs` come to -/
structure Collected (xs : List Insertion) (es : List Entry) : Prop where
  nodup : (es.map Entry.word).Nodup
  words : ∀ w, w ∈ es.map Entry.word ↔ w ∈ xs.map Insertion.word
  payload : ∀ e ∈ es, e.payload = postedTo xs e.word

section Collected

variable {xs ys : List Insertion} {es fs : List Entry} {x : Insertion}

theorem postedTo_append (xs : List Insertion) (x : Insertion) (w : Word) :
    postedTo (xs ++ [x]) w = postedTo xs w ++ if x.word = w then [x.query] else [] := by
  rw [postedTo, postedTo, List.filter_append, List.map_append]
  by_cases h : x.word = w <;> simp [h]

theorem postedTo_nil {w : Word} : postedTo xs w = [] ↔ w ∉ xs.map Insertion.word := by
  rw [postedTo, List.map_eq_nil_iff, List.filter_eq_nil_iff]
  simp

theorem collected_nil : Collected [] [] := ⟨List.nodup_nil, by simp, by simp⟩

/-- the first insertion of a word -/
theorem Collected.new (h : Collected xs es) (hno : x.word ∉ es.map Entry.word) :
    Collected (xs ++ [x]) (es ++ [⟨x.word, [x.query]⟩]) where
  nodup := by
    rw [List.map_append, List.map_singleton, List.nodup_append]
    refine ⟨h.nodup, List.nodup_singleton _, fun a ha b hb hab => hno ?_⟩
    rwa [hab, List.mem_singleton.1 hb] at ha
  words w := by
    rw [List.map_append, List.map_append, List.mem_append, List.mem_append, h.words]
    simp
  payload e he := by
    rw [postedTo_append]
    rcases List.mem_append.1 he with he | he
    · have hne : x.word ≠ e.word := fun heq => hno (heq ▸ List.mem_map_of_mem he)
      rw [if_neg hne, List.append_nil, h.payload e he]
    · rw [List.mem_singleton.1 he, if_pos rfl, postedTo_nil.2 (fun hx => hno ((h.words _).2 hx)), List.nil_append]

/-- one more insertion of a word -/
theorem Collected.push (h : Collected xs es) {n : ℕ} {e₀ : Entry} (hn : es[n]? = some e₀) (hword : e₀.word = x.word) :
    Collected (xs ++ [x]) (es.modify n (Index.pushQuery x.query)) := by
  have hwords : (es.modify n (Index.pushQuery x.query)).map Entry.word = es.map Entry.word := by
    ext i w
    rw [List.getElem?_map, List.getElem?_modify, List.getElem?_map]
    by_cases hi : n = i <;> cases es[i]? <;> simp [hi, Index.pushQuery]
  refine ⟨by rw [hwords]; exact h.nodup, fun w => ?_, fun e he => ?_⟩
  · have hold : x.word ∈ xs.map Insertion.word :=
      (h.words _).1 (hword ▸ List.mem_map_of_mem (List.mem_of_getElem? hn))
    rw [hwords, h.words, List.map_append, List.mem_append]
    constructor
    · exact .inl
    · rintro (hw | hw)
      · exact hw
      · rw [List.map_singleton, List.mem_singleton] at hw
        rwa [hw]
  · obtain ⟨i, hi⟩ := List.mem_iff_getElem?.1 he
    rw [List.getElem?_modify] at hi
    obtain ⟨e₁, he₁, rfl⟩ := Option.map_eq_some_iff.1 hi
    have hpay := h.payload e₁ (List.mem_of_getElem? he₁)
    rw [postedTo_append]
    by_cases hni : n = i
    · subst hni
      rw [hn] at he₁
      cases he₁
      rw [if_pos rfl]
      simp only [Index.pushQuery, hpay, hword, if_true]
    · have hne : x.word ≠ e₁.word := by
        intro heq
        have h1 : (es.map Entry.word)[n]? = some x.word := by rw [List.getElem?_map, hn, Option.map_some, hword]
        have h2 : (es.map Entry.word)[i]? = some x.word := by rw [List.getElem?_map, he₁, Option.map_some, heq]
        have hlt := (List.getElem?_eq_some_iff.1 h1).1
        exact hni ((List.getElem?_inj hlt h.nodup).1 (h1.trans h2.symm))
      rw [if_neg hni, if_neg hne, List.append_nil, hpay]

/-- the entries, whatever their order, are the words with the queries inserted under them -/
theorem Collected.postings (h : Collected xs es) (p : Word → Bool) :
    (es.filter fun e => p e.word).map Entry.posting =
      ((es.map Entry.word).filter p).map fun w => (w, (postedTo xs w : Multiset ℕ)) := by
  rw [List.filter_map, List.map_map]
  refine List.map_congr_left fun e he => ?_
  rw [Entry.posting, h.payload e (List.mem_filter.1 he).1]
  rfl

/-- the same insertions in another order -/
theorem postedTo_perm (hperm : (xs.map Insertion.posting).Perm (ys.map Insertion.posting)) (w : Word) :
    (postedTo xs w : Multiset ℕ) = postedTo ys w := by
  have hfirst : ∀ zs : List Insertion,
      postedTo zs w = ((zs.map Insertion.posting).filter fun a => a.2 = w).map Prod.fst := by
    intro zs
    rw [List.filter_map, List.map_map]
    rfl
  rw [hfirst, hfirst]
  exact Multiset.coe_eq_coe.2 ((hperm.filter _).map _)

theorem words_perm (hperm : (xs.map Insertion.posting).Perm (ys.map Insertion.posting)) :
    (xs.map Insertion.word).Perm (ys.map Insertion.word) := by
  have := hperm.map Prod.snd
  rwa [List.map_map, List.map_map] at this

/-- **Order does not matter**: the same insertions come to the same entries, up to the order of entries and queries -/
theorem Collected.perm (hx : Collected xs es) (hy : Collected ys fs)
    (hperm : (xs.map Insertion.posting).Perm (ys.map Insertion.posting)) (p : Word → Bool) :
    ((es.filter fun e => p e.word).map Entry.posting).Perm ((fs.filter fun e => p e.word).map Entry.posting) := by
  have hwords : (es.map Entry.word).Perm (fs.map Entry.word) := by
    refine (List.perm_ext_iff_of_nodup hx.nodup hy.nodup).2 fun w => ?_
    rw [hx.words, hy.words, (words_perm hperm).mem_iff]
  rw [hx.postings, hy.postings]
  refine ((hwords.filter p).map _).trans (List.Perm.of_eq ?_)
  exact List.map_congr_left fun w _ => by rw [postedTo_perm hperm]

end Collected

/-! ## Runs -/

namespace Index

variable {ix : Index} {xs : List Insertion} {x : Insertion} {r : TreeRef} {t : BkTree Entry} {kids : ℕ → List ℕ}

/-- **One `add_to_tree`** -/
theorem addToTree_collected (ht : ix.tree r = some t) (hinv : BkTree.Inv Entry.word r.words r.d t kids)
    (hc : Collected xs (t.nodes.map BkNode.data)) (hx : x.word ∈ r.words) (hh : x.height < bkTreeSkipListLevels) :
    ∃ ix' t' kids', ix.insertInto (.tree r) x = some ix' ∧ ix'.tree r = some t' ∧
      BkTree.Inv Entry.word r.words r.d t' kids' ∧ Collected (xs ++ [x]) (t'.nodes.map BkNode.data) := by
  obtain ⟨found, hfind, hsome, hnone⟩ := BkTree.find_spec r.metric hinv hx (fits ht hinv hx le_rfl (by decide))
  simp only [insertInto, addToTree, ht, Option.bind_some, hfind]
  cases found with
  | none =>
    obtain ⟨t', kids', hins, hinv', hdata⟩ := BkTree.insert_spec r.metric hinv
      (show Entry.word ⟨x.word, [x.query]⟩ ∈ r.words from hx) hh
    refine ⟨ix.setTree r t', t', kids', by rw [hins]; rfl, by rw [tree_setTree ht, if_pos rfl], hinv', ?_⟩
    rw [hdata]
    refine hc.new fun hmem => ?_
    obtain ⟨e, he, hword⟩ := List.mem_map.1 hmem
    obtain ⟨node, hnode, rfl⟩ := List.mem_map.1 he
    obtain ⟨i, hi⟩ := List.mem_iff_getElem?.1 hnode
    exact hnone rfl i (by rw [BkTree.wordOf, hi, Option.map_some, hword])
  | some n =>
    obtain ⟨node, hnode, hword⟩ := BkTree.node_of_word (hsome n rfl)
    refine ⟨_, t.update n (pushQuery x.query), kids, rfl, by rw [tree_setTree ht, if_pos rfl],
      BkTree.update_inv hinv n (pushQuery_word x.query), ?_⟩
    rw [BkTree.update_data]
    exact hc.push (by rw [List.getElem?_map, hnode, Option.map_some]) hword

/-- **Every run of `add_to_tree` calls** on one tree -/
theorem run_tree (hr : (init.tree r).isSome) (hwords : ∀ x ∈ xs, x.word ∈ r.words)
    (hheights : ∀ x ∈ xs, x.height < bkTreeSkipListLevels) :
    ∃ ix t kids, run (insertInto (.tree r)) init xs = some ix ∧ ix.tree r = some t ∧
      BkTree.Inv Entry.word r.words r.d t kids ∧ Collected xs (t.nodes.map BkNode.data) := by
  induction xs using List.reverseRecOn with
  | nil =>
    obtain ⟨t, ht⟩ := Option.isSome_iff_exists.1 hr
    have hempty := tree_init ht
    subst hempty
    exact ⟨init, _, _, rfl, ht, BkTree.inv_empty _ _ _, collected_nil⟩
  | append_singleton xs x ih =>
    obtain ⟨ix, t, kids, hrun, ht, hinv, hc⟩ := ih (fun y hy => hwords y (List.mem_append_left _ hy))
      fun y hy => hheights y (List.mem_append_left _ hy)
    obtain ⟨ix', t', kids', hins, ht', hinv', hc'⟩ :=
      addToTree_collected ht hinv hc (hwords x (by simp)) (hheights x (by simp))
    exact ⟨ix', t', kids', by rw [run_snoc, hrun, Option.bind_some, hins], ht', hinv', hc'⟩

/-- **Every run of `add_to_hash_table` calls** -/
theorem run_exact (xs : List Insertion) : ∃ ix, run (insertInto .exact) init xs = some ix ∧
    ∀ w, ix.exact.get w = if w ∈ xs.map Insertion.word then some (postedTo xs w) else none := by
  induction xs using List.reverseRecOn with
  | nil => exact ⟨init, rfl, fun w => by simp [init]⟩
  | append_singleton xs x ih =>
    obtain ⟨ix, hrun, hget⟩ := ih
    refine ⟨ix.addToHashTable x.query x.word, by rw [run_snoc, hrun]; rfl, fun w => ?_⟩
    have hmem : w ∈ (xs ++ [x]).map Insertion.word ↔ w ∈ xs.map Insertion.word ∨ x.word = w := by
      simp [eq_comm]
    rw [addToHashTable, postedTo_append]
    by_cases hold : x.word ∈ xs.map Insertion.word
    · simp only [hget x.word, if_pos hold, Table.get_modify, hget w, hmem]
      by_cases hw : x.word = w
      · subst hw
        simp [hold]
      · simp [hw, Ne.symm hw]
    · simp only [hget x.word, if_neg hold]
      rw [Table.get_insert_new _ (by rw [hget, if_neg hold]), hget]
      simp only [hmem]
      by_cases hw : x.word = w
      · subst hw
        simp [postedTo_nil.2 hold]
      · simp [hw]

theorem collected_exact (hget : ∀ w, ix.exact.get w = if w ∈ xs.map Insertion.word then some (postedTo xs w) else none) :
    Collected xs (ix.exact.entries.map fun e => ⟨e.1, e.2⟩) := by
  have hmem : ∀ w, w ∈ ix.exact.entries.map Prod.fst ↔ w ∈ xs.map Insertion.word := by
    intro w
    constructor
    · intro hw
      obtain ⟨e, he, rfl⟩ := List.mem_map.1 hw
      have := (ix.exact.mem_entries (k := e.1) (v := e.2)).1 he
      rw [hget] at this
      by_contra hno
      rw [if_neg hno] at this
      cases this
    · intro hw
      exact List.mem_map.2 ⟨(w, postedTo xs w), ix.exact.mem_entries.2 (by rw [hget, if_pos hw]), rfl⟩
  refine ⟨by rw [List.map_map]; exact ix.exact.keys_nodup, fun w => by rw [List.map_map]; exact hmem w, fun e he => ?_⟩
  obtain ⟨⟨w, payload⟩, hwp, rfl⟩ := List.mem_map.1 he
  have hw := ix.exact.mem_entries.1 hwp
  rw [hget] at hw
  split at hw
  · exact (Option.some.inj hw).symm
  · cases hw

/-! ## Answers -/

/-- a search finds the words that are near `w` -/
def near (slot : Slot) (threshold : ℤ) (w : Word) (u : Word) : Bool :=
  match slot with
  | .tree r => r.d u w ≤ threshold
  | .exact => u = w

/-- the bounds of the search windows around the words of `xs` fit an `int` -/
def WindowFits (slot : Slot) (xs : List Insertion) (threshold : ℤ) (w : Word) : Prop :=
  ∀ r, slot = .tree r → ∀ x ∈ xs, BkTree.intFits (r.d x.word w - threshold) ∧ BkTree.intFits (r.d x.word w + threshold)

theorem found_tree (ht : ix.tree r = some t) (hinv : BkTree.Inv Entry.word r.words r.d t kids)
    (hc : Collected xs (t.nodes.map BkNode.data)) {threshold : ℤ} {w : Word} (hw : w ∈ r.words)
    (hfit : WindowFits (.tree r) xs threshold w) :
    ∃ fs, ix.found (.tree r) threshold w = some fs ∧
      fs.Perm ((t.nodes.map BkNode.data).filter fun e => near (.tree r) threshold w e.word) := by
  have hfits : BkTree.Fits Entry.word r.d t w threshold := by
    intro i u hu
    obtain ⟨node, hnode, rfl⟩ := BkTree.node_of_word hu
    have hmem : node.data.word ∈ (t.nodes.map BkNode.data).map Entry.word :=
      List.mem_map_of_mem (List.mem_map_of_mem (List.mem_of_getElem? hnode))
    obtain ⟨x, hx, hword⟩ := List.mem_map.1 ((hc.words _).1 hmem)
    rw [← hword]
    exact hfit r rfl x hx
  obtain ⟨nodes, hmatch, -, -, hperm⟩ := BkTree.match_perm r.metric hinv hw hfits
  exact ⟨_, by rw [found, ht, Option.bind_some, hmatch, Option.map_some], hperm⟩

/-- a Hamming tree throws on words of another length, unless it is empty -/
theorem found_throws {k : ℕ} (ht : ix.tree (.hamming k) = some t)
    (hinv : BkTree.Inv Entry.word (TreeRef.hamming k).words (TreeRef.hamming k).d t kids) {w : Word}
    (hw : w ∉ (TreeRef.hamming k).words) (threshold : ℤ) :
    ix.found (.tree (.hamming k)) threshold w = if t.nodes.map BkNode.data = [] then some [] else none := by
  rw [found, ht, Option.bind_some]
  by_cases hnil : t.nodes = []
  · simp [BkTree.match, BkTree.matchWithin, hinv.root_eq, hnil]
  · have hthrow : ∀ a ∈ (TreeRef.hamming k).words, (TreeRef.hamming k).dist a w = none := by
      intro a ha
      refine hammingDistance_none fun heq => hw ?_
      exact heq.symm.trans ha
    rw [BkTree.match_throws hinv hnil hthrow, Option.map_none, if_neg (by simpa using hnil)]

theorem found_exact (ix : Index) (threshold : ℤ) (w : Word) :
    ∃ fs, ix.found .exact threshold w = some fs ∧
      fs.Perm ((ix.exact.entries.map fun e => (⟨e.1, e.2⟩ : Entry)).filter fun e => near .exact threshold w e.word) := by
  refine ⟨_, rfl, (List.perm_ext_iff_of_nodup ?_ ?_).2 fun e => ?_⟩
  · cases ix.exact.get w <;> simp
  · refine List.Nodup.filter _ (List.Nodup.of_map Entry.word ?_)
    rw [List.map_map]
    exact ix.exact.keys_nodup
  · simp only [List.mem_filter, List.mem_map, near, decide_eq_true_eq, Option.mem_toList]
    constructor
    · rintro ⟨payload, hget, rfl⟩
      exact ⟨⟨(w, payload), ix.exact.mem_entries.2 hget, rfl⟩, rfl⟩
    · rintro ⟨⟨⟨u, payload⟩, hmem, rfl⟩, rfl⟩
      exact ⟨payload, ix.exact.mem_entries.1 hmem, rfl⟩

/-- what a run of the insertions `xs` leaves -/
structure Gathered (slot : Slot) (xs : List Insertion) (ix : Index) (es : List Entry) : Prop where
  contents : ix.contents slot = some es
  collected : Collected xs es
  found : ∀ threshold w, (∀ r, slot = .tree r → w ∈ r.words) → WindowFits slot xs threshold w →
    ∃ fs, ix.found slot threshold w = some fs ∧ fs.Perm (es.filter fun e => near slot threshold w e.word)
  throws : ∀ k threshold w, slot = .tree (.hamming k) → w ∉ (TreeRef.hamming k).words →
    ix.found slot threshold w = if es = [] then some [] else none

theorem run_gathered (slot : Slot) (hslot : ∀ r, slot = .tree r → (init.tree r).isSome ∧ ∀ x ∈ xs, x.word ∈ r.words)
    (hheights : ∀ x ∈ xs, x.height < bkTreeSkipListLevels) :
    ∃ ix es, run (insertInto slot) init xs = some ix ∧ Gathered slot xs ix es := by
  cases slot with
  | tree r =>
    obtain ⟨hr, hwords⟩ := hslot r rfl
    obtain ⟨ix, t, kids, hrun, ht, hinv, hc⟩ := run_tree hr hwords hheights
    refine ⟨ix, _, hrun, by rw [contents, ht, Option.map_some], hc,
      fun threshold w hw hfit => found_tree ht hinv hc (hw r rfl) hfit, fun k threshold w hk hw => ?_⟩
    cases hk
    exact found_throws ht hinv hw threshold
  | exact =>
    obtain ⟨ix, hrun, hget⟩ := run_exact xs
    refine ⟨ix, _, hrun, rfl, collected_exact hget, fun threshold w _ _ => found_exact ix threshold w, ?_⟩
    intro k threshold w hk
    cases hk

/-- **Index building is order-independent.** Two runs of the same insertions into one empty index, in any orders and with
any heights, are defined. Both indexes store every inserted word once, with each query once for every insertion of the
word under it, and a search for any word, with any threshold whose windows fit an `int`, finds the same words with the
same queries in both. -/
theorem order_independent (slot : Slot) (xs ys : List Insertion)
    (hperm : (xs.map Insertion.posting).Perm (ys.map Insertion.posting))
    (hslot : ∀ r, slot = .tree r → (init.tree r).isSome ∧ ∀ x ∈ xs, x.word ∈ r.words)
    (hheights : ∀ x ∈ xs ++ ys, x.height < bkTreeSkipListLevels) :
    ∃ ix iy es fs, run (insertInto slot) init xs = some ix ∧ run (insertInto slot) init ys = some iy ∧
      ix.contents slot = some es ∧ iy.contents slot = some fs ∧ (es.map Entry.word).Nodup ∧ (fs.map Entry.word).Nodup ∧
      (∀ w, w ∈ es.map Entry.word ↔ ∃ x ∈ xs, x.word = w) ∧
      (∀ e ∈ es, (e.payload : Multiset ℕ) = (xs.filter fun x => x.word = e.word).map Insertion.query) ∧
      (es.map Entry.posting).Perm (fs.map Entry.posting) ∧
      ∀ threshold w, (slot = .tree .edit → w.length ≤ maxWordLength) → WindowFits slot xs threshold w →
        ((ix.found slot threshold w).map fun es => (es.map Entry.posting : Multiset (Word × Multiset ℕ))) =
            (iy.found slot threshold w).map (fun es => (es.map Entry.posting : Multiset (Word × Multiset ℕ))) ∧
          ((∀ r, slot = .tree r → w ∈ r.words) → (ix.found slot threshold w).isSome) := by
  have hwordsPerm := words_perm hperm
  have hword : ∀ y ∈ ys, ∃ x ∈ xs, x.word = y.word := fun y hy =>
    List.mem_map.1 (hwordsPerm.mem_iff.2 (List.mem_map_of_mem hy))
  obtain ⟨ix, es, hrunx, hx⟩ := run_gathered slot hslot fun x hx => hheights x (List.mem_append_left _ hx)
  obtain ⟨iy, fs, hruny, hy⟩ := run_gathered slot
    (fun r hr => ⟨(hslot r hr).1, fun y hy => by
      obtain ⟨x, hx, heq⟩ := hword y hy
      exact heq ▸ (hslot r hr).2 x hx⟩)
    fun y hy => hheights y (List.mem_append_right _ hy)
  have hpostings := hx.collected.perm hy.collected hperm
  refine ⟨ix, iy, es, fs, hrunx, hruny, hx.contents, hy.contents, hx.collected.nodup, hy.collected.nodup,
    fun w => by rw [hx.collected.words, List.mem_map], fun e he => by rw [hx.collected.payload e he]; rfl,
    by simpa using hpostings fun _ => true, fun threshold w hlen hfit => ?_⟩
  by_cases hw : ∀ r, slot = .tree r → w ∈ r.words
  · have hfity : WindowFits slot ys threshold w := by
      intro r hr y hy
      obtain ⟨x, hx, heq⟩ := hword y hy
      rw [← heq]
      exact hfit r hr x hx
    obtain ⟨as, hfx, hpx⟩ := hx.found threshold w hw hfit
    obtain ⟨bs, hfy, hpy⟩ := hy.found threshold w hw hfity
    refine ⟨?_, fun _ => by rw [hfx]; rfl⟩
    have hnear := hpostings (near slot threshold w)
    rw [hfx, hfy, Option.map_some, Option.map_some, Option.some.injEq, Multiset.coe_eq_coe]
    exact (hpx.map _).trans (hnear.trans (hpy.map _).symm)
  · refine ⟨?_, fun h => absurd h hw⟩
    -- only a Hamming tree is searched for a word that is not its own
    obtain ⟨k, hk, hout⟩ : ∃ k, slot = .tree (.hamming k) ∧ w ∉ (TreeRef.hamming k).words := by
      simp only [not_forall] at hw
      obtain ⟨r, hr, hno⟩ := hw
      cases r with
      | edit => exact absurd (hlen hr) hno
      | hamming k => exact ⟨k, hr, hno⟩
    have hnil : es = [] ↔ fs = [] := by
      have := (hpostings fun _ => true).length_eq
      simp only [List.filter_true, List.length_map] at this
      rw [← List.length_eq_zero_iff, this, List.length_eq_zero_iff]
    rw [hx.throws k threshold w hk hout, hy.throws k threshold w hk hout]
    simp only [hnil]

/-- three insertions of two words, and the same in another order with other heights -/
theorem order_independent_hamming :
    ∃ ix iy es fs,
      run (insertInto (.tree (.hamming 0))) init
        [⟨0, [97, 97, 97, 97], 1⟩, ⟨1, [97, 97, 97, 98], 0⟩, ⟨2, [97, 97, 97, 97], 3⟩] = some ix ∧
      run (insertInto (.tree (.hamming 0))) init
        [⟨2, [97, 97, 97, 97], 0⟩, ⟨1, [97, 97, 97, 98], 2⟩, ⟨0, [97, 97, 97, 97], 0⟩] = some iy ∧
      ix.contents (.tree (.hamming 0)) = some es ∧ iy.contents (.tree (.hamming 0)) = some fs ∧
      (es.map Entry.posting).Perm (fs.map Entry.posting) := by
  obtain ⟨ix, iy, es, fs, hx, hy, hes, hfs, -, -, -, -, hperm, -⟩ := order_independent (.tree (.hamming 0))
    [⟨0, [97, 97, 97, 97], 1⟩, ⟨1, [97, 97, 97, 98], 0⟩, ⟨2, [97, 97, 97, 97], 3⟩]
    [⟨2, [97, 97, 97, 97], 0⟩, ⟨1, [97, 97, 97, 98], 2⟩, ⟨0, [97, 97, 97, 97], 0⟩] (by decide)
    (fun r hr => by cases hr; exact ⟨by decide, by simp [TreeRef.words, minWordLength]⟩) (by decide)
  exact ⟨ix, iy, es, fs, hx, hy, hes, hfs, hperm⟩

/-! ## Lookup -/

/-- **Lookup.** After any `insert` calls, with any heights, `find` is defined for every word, returns a node whose datum
is at distance 0 if one was inserted and the null pointer otherwise. So after any `add_to_tree` calls no word has two
nodes. -/
theorem find_complete {T W : Type} {S : Set W} {dist : W → W → Option ℤ} {d : W → W → ℤ} (view : T → W)
    (hm : MetricOn S dist d) (hint : ∀ a ∈ S, ∀ b ∈ S, BkTree.intFits (d a b)) :
    (∀ xs : List (T × ℕ), (∀ x ∈ xs, view x.1 ∈ S) → (∀ x ∈ xs, x.2 < bkTreeSkipListLevels) → ∀ w ∈ S,
      ∃ t r, run (BkTree.step view dist) BkTree.empty xs = some t ∧ t.find view dist w = some r ∧
        (∀ i, r = some i → ∃ x, (xs[i]?).map Prod.fst = some x ∧ (t.nodes[i]?).map BkNode.data = some x ∧
          d (view x) w = 0) ∧
        (r = none → ∀ x ∈ xs, d (view x.1) w ≠ 0)) ∧
    ∀ (r : TreeRef) (ys : List Insertion), (init.tree r).isSome → (∀ y ∈ ys, y.word ∈ r.words) →
      (∀ y ∈ ys, y.height < bkTreeSkipListLevels) →
      ∃ ix t, run (insertInto (.tree r)) init ys = some ix ∧ ix.tree r = some t ∧
        ((t.nodes.map BkNode.data).map Entry.word).Nodup ∧
        ∀ w, w ∈ (t.nodes.map BkNode.data).map Entry.word ↔ ∃ y ∈ ys, y.word = w := by
  refine ⟨fun xs hwords hheights w hw => ?_, fun r ys hr hwords hheights => ?_⟩
  · obtain ⟨t, kids, ht, hinv, hdata⟩ := BkTree.run_spec hm hwords hheights
    have hget : ∀ i : ℕ, t.nodes[i]?.map BkNode.data = (xs[i]?).map Prod.fst := by
      intro i
      rw [← List.getElem?_map, hdata, List.getElem?_map]
    have hfit : BkTree.Fits view d t w 0 := by
      intro i u hu
      rw [sub_zero, add_zero]
      exact ⟨hint u (hinv.words i u hu) w hw, hint u (hinv.words i u hu) w hw⟩
    obtain ⟨r, hr, hsome, hnone⟩ := BkTree.find_spec hm hinv hw hfit
    refine ⟨t, r, ht, hr, fun i hi => ?_, fun hn x hx hzero => ?_⟩
    · obtain ⟨node, hnode, hword⟩ := BkTree.node_of_word (hsome i hi)
      refine ⟨node.data, ?_, by rw [hnode, Option.map_some], ?_⟩
      · rw [← hget, hnode, Option.map_some]
      · rw [hword]
        exact (hm.eq_zero w hw w hw).2 rfl
    · obtain ⟨i, hi⟩ := List.mem_iff_getElem?.1 hx
      refine hnone hn i ?_
      rw [BkTree.wordOf_eq view hdata, hi, Option.map_some, Option.some.injEq]
      exact (hm.eq_zero _ (hwords x hx) w hw).1 hzero
  · obtain ⟨ix, t, kids, hrun, ht, -, hc⟩ := run_tree hr hwords hheights
    exact ⟨ix, t, hrun, ht, hc.nodup, fun w => by rw [hc.words, List.mem_map]⟩

/-- two inserts into a tree of words of two characters -/
theorem find_complete_two :
    ∃ t r, run (BkTree.step id hammingDistance) BkTree.empty [([104, 101], 1), ([97, 98], 0)] = some t ∧
      t.find id hammingDistance [97, 98] = some r ∧
      (∀ i, r = some i → ∃ x, ([(([104, 101] : Word), 1), ([97, 98], 0)][i]?).map Prod.fst = some x ∧
        (t.nodes[i]?).map BkNode.data = some x ∧ (mismatches x [97, 98] : ℤ) = 0) ∧
      (r = none → ∀ x ∈ [(([104, 101] : Word), 1), ([97, 98], 0)], (mismatches x.1 [97, 98] : ℤ) ≠ 0) :=
  (find_complete id (hamming_metric 2) fun a ha b _ => by
    have := mismatches_le a b
    have ha : a.length = 2 := ha
    simp only [BkTree.intFits]
    omega).1 [([104, 101], 1), ([97, 98], 0)] (by simp) (by decide) [97, 98] rfl

end Index

end K23Search.Core
