/-
The word indexes of the engine (core.cpp): the table of exact words, the tree of the edit distance and the array of
trees of the Hamming distance, one for each word length. An entry is a word and the queries that have it, as pointers
(positions in the list of all queries ever started, which are never freed).

An insertion (`add_to_tree`, `add_to_hash_table`) runs under the lock of its index and is one operation. A search reads
the index without the lock; it is one operation as well. What is undefined, the trees past the end of the array among
it, is `none`.

Results:
- `addToTree_spec`, `addToHashTable_spec`: an insertion is defined and adds one posting;
- `search_spec`, `mem_searchExact`: a search is defined and finds exactly the active queries posted under the words
  within the threshold.
-/
import K23Search.Containers.BkTree
import K23Search.Containers.Table
import K23Search.Text.StringView

namespace K23Search.Core

open K23Search.Lib K23Search.Text

/-! ## Model -/

abbrev Word := List UInt8

def minWordLength : ℕ := 4

def hammingBkTrees : ℕ := maxWordLength - minWordLength

/-- `std::hash<qs::string_view>`; a `char` is signed and is added modulo 2^64 -/
def wordHash (w : Word) : ℕ :=
  w.foldl (fun hash c => (33 * hash + if c < 128 then c.toNat else c.toNat + (2 ^ 64 - 256)) % 2 ^ 64) 5381

inductive MatchType where
  | exactMatch
  | hammingDist
  | editDist
deriving DecidableEq, Repr

structure Query where
  id : ℕ
  active : Bool
  matchType : MatchType
  matchDist : ℕ
  queryStr : List UInt8
  uniqueWords : WordSet wordHash

structure Entry where
  word : Word
  payload : List ℕ

/-- a `ts_bk_tree *`: the edit tree, or an element of the array of Hamming trees -/
inductive TreeRef where
  | edit
  | hamming (k : ℕ)
deriving DecidableEq, Repr

/-- `&hamming_bk_trees()[w.size() - MIN_WORD_LENGTH]` -/
def hammingTree (w : Word) : TreeRef := .hamming ((w.length + (2 ^ 64 - minWordLength)) % 2 ^ 64)

/-- the distance function of a tree -/
def TreeRef.dist : TreeRef → Word → Word → Option ℤ
  | .edit => editDistance
  | .hamming _ => hammingDistance

structure Index where
  exact : Table wordHash (List ℕ)
  edit : BkTree Entry
  hamming : ℕ → BkTree Entry

namespace Index

def init : Index := ⟨Table.ofCapacity wordHash 4096, BkTree.empty, fun _ => BkTree.empty⟩

/-- the tree at a pointer; none past the end of the array -/
def tree (ix : Index) : TreeRef → Option (BkTree Entry)
  | .edit => some ix.edit
  | .hamming k => if k < hammingBkTrees then some (ix.hamming k) else none

def setTree (ix : Index) (r : TreeRef) (t : BkTree Entry) : Index :=
  match r with
  | .edit => { ix with edit := t }
  | .hamming k => { ix with hamming := Function.update ix.hamming k t }

/-- `payload.push(q)` -/
def pushQuery (q : ℕ) (e : Entry) : Entry := { e with payload := e.payload ++ [q] }

/-- `add_to_tree(q, str, tree)`, with the height the insertion draws -/
def addToTree (ix : Index) (q : ℕ) (str : Word) (r : TreeRef) (height : ℕ) : Option Index :=
  (ix.tree r).bind fun t => (t.find Entry.word r.dist str).bind fun
    | none => (t.insert Entry.word r.dist ⟨str, [q]⟩ height).map (ix.setTree r)
    | some found => some (ix.setTree r (t.update found (pushQuery q)))

/-- `add_to_hash_table(q, str, ht)` -/
def addToHashTable (ix : Index) (q : ℕ) (str : Word) : Index :=
  match ix.exact.get str with
  | none => { ix with exact := ix.exact.insert str [q] }
  | some _ => { ix with exact := ix.exact.modify str (· ++ [q]) }

/-- the conversion `(int)` of an unsigned number -/
def asInt (k : ℕ) : ℤ := if k % 2 ^ 32 < 2 ^ 31 then (k % 2 ^ 32 : ℕ) else (k % 2 ^ 32 : ℕ) - 2 ^ 32

/-- the test of `match_queries` on a query of a payload -/
def wanted (queries : List Query) (key : ℕ) (mq : ℕ) : Bool :=
  (queries[mq]?).any fun q => q.active && q.matchDist == key

/-- one turn of the loop of `match_queries`: the calls of `add_query_to_doc_results` for threshold `key` -/
def search (ix : Index) (queries : List Query) (r : TreeRef) (key : ℕ) (w : Word) : Option (List (ℕ × Word)) :=
  (ix.tree r).bind fun t => (t.match Entry.word r.dist (asInt key) w).map fun matchedWords =>
    (matchedWords.filterMap fun mw => (t.nodes[mw]?).map BkNode.data).flatMap fun e =>
      (e.payload.filter (wanted queries key)).map fun mq => (mq, e.word)

/-- `match_exact`: the calls of `add_query_to_doc_results` -/
def searchExact (ix : Index) (queries : List Query) (w : Word) : List (ℕ × Word) :=
  match ix.exact.get w with
  | none => []
  | some payload => (payload.filter fun mq => (queries[mq]?).any Query.active).map fun mq => (mq, w)

end Index

/-! ## What an index holds -/

/-- the words a tree is for -/
def TreeRef.words : TreeRef → Set Word
  | .edit => {w | w.length ≤ maxWordLength}
  | .hamming k => {w | w.length = k + minWordLength}

/-- the distance of a tree, on its words -/
def TreeRef.d : TreeRef → Word → Word → ℤ
  | .edit => fun a b => lev a b
  | .hamming _ => fun a b => mismatches a b

theorem TreeRef.metric (r : TreeRef) : MetricOn r.words r.dist r.d := by
  cases r with
  | edit => exact edit_metric
  | hamming k => exact hamming_metric (k + minWordLength)

/-- where the queries of a word are posted -/
inductive Slot where
  | tree (r : TreeRef)
  | exact
deriving DecidableEq, Repr

namespace Index

variable {ix : Index}

/-- every tree is one of its own words -/
def Ok (ix : Index) : Prop :=
  ∀ r t, ix.tree r = some t → ∃ kids, BkTree.Inv Entry.word r.words r.d t kids

/-- query `q` is in the payload of word `u` -/
def Posts (ix : Index) : Slot → Word → ℕ → Prop
  | .tree r, u, q => ∃ t, ix.tree r = some t ∧ ∃ e ∈ t.nodes.map BkNode.data, e.word = u ∧ q ∈ e.payload
  | .exact, u, q => ∃ payload, ix.exact.get u = some payload ∧ q ∈ payload

theorem tree_init {r : TreeRef} {t : BkTree Entry} (ht : init.tree r = some t) : t = BkTree.empty := by
  cases r with
  | edit => exact (Option.some.inj ht).symm
  | hamming k =>
    simp only [tree] at ht
    split at ht
    · exact (Option.some.inj ht).symm
    · cases ht

theorem ok_init : init.Ok := by
  intro r t ht
  rw [tree_init ht]
  exact ⟨_, BkTree.inv_empty _ _ _⟩

theorem posts_init (slot : Slot) (u : Word) (q : ℕ) : ¬ init.Posts slot u q := by
  cases slot with
  | exact =>
    intro h
    obtain ⟨payload, hget, -⟩ := h
    simp [init] at hget
  | tree r =>
    intro h
    obtain ⟨t, ht, e, he, -⟩ := h
    rw [tree_init ht] at he
    cases he

theorem tree_setTree {r : TreeRef} {t t' : BkTree Entry} (ht : ix.tree r = some t) (r' : TreeRef) :
    (ix.setTree r t').tree r' = if r' = r then some t' else ix.tree r' := by
  cases r with
  | edit => cases r' <;> simp [setTree, tree]
  | hamming k =>
    have hk : k < hammingBkTrees := by
      by_contra hlt
      simp [tree, hlt] at ht
    cases r' with
    | edit => simp [setTree, tree]
    | hamming k' =>
      by_cases hkk : k' = k
      · subst hkk
        simp [setTree, tree, hk]
      · simp [setTree, tree, hkk]

theorem exact_setTree (ix : Index) (r : TreeRef) (t : BkTree Entry) : (ix.setTree r t).exact = ix.exact := by
  cases r <;> rfl

/-- an operation on one tree -/
theorem setTree_spec {r : TreeRef} {t t' : BkTree Entry} {kids : ℕ → List ℕ} (h : ix.Ok) (ht : ix.tree r = some t)
    (hinv : BkTree.Inv Entry.word r.words r.d t' kids) {u : Word} {q : ℕ}
    (hposts : ∀ u' q', (∃ e ∈ t'.nodes.map BkNode.data, e.word = u' ∧ q' ∈ e.payload) ↔
      (∃ e ∈ t.nodes.map BkNode.data, e.word = u' ∧ q' ∈ e.payload) ∨ (u' = u ∧ q' = q)) :
    (ix.setTree r t').Ok ∧ ∀ slot u' q', (ix.setTree r t').Posts slot u' q' ↔
      ix.Posts slot u' q' ∨ (slot = .tree r ∧ u' = u ∧ q' = q) := by
  refine ⟨fun r' s hs => ?_, fun slot u' q' => ?_⟩
  · rw [tree_setTree ht] at hs
    split at hs
    · next hr =>
      cases hs
      subst hr
      exact ⟨kids, hinv⟩
    · exact h r' s hs
  · cases slot with
    | exact => simp [Posts, exact_setTree]
    | tree r' =>
      simp only [Posts, tree_setTree ht, Slot.tree.injEq]
      by_cases hr : r' = r
      · subst hr
        simpa [ht] using hposts u' q'
      · simp [hr]

theorem tree_lt {k : ℕ} {t : BkTree Entry} (ht : ix.tree (.hamming k) = some t) : k < hammingBkTrees := by
  simp only [tree] at ht
  split at ht
  · next hk => exact hk
  · cases ht

/-- distances between the words of a tree are small -/
theorem d_le {r : TreeRef} {t : BkTree Entry} (ht : ix.tree r = some t) {a b : Word} (ha : a ∈ r.words)
    (hb : b ∈ r.words) : 0 ≤ r.d a b ∧ r.d a b ≤ maxWordLength := by
  cases r with
  | edit =>
    have := lev_le_max a b
    have ha : a.length ≤ maxWordLength := ha
    have hb : b.length ≤ maxWordLength := hb
    simp only [TreeRef.d]
    omega
  | hamming k =>
    have hk := tree_lt ht
    have ha : a.length = k + minWordLength := ha
    have := mismatches_le a b
    simp only [TreeRef.d, hammingBkTrees, minWordLength] at *
    omega

/-- every window around such a distance fits an `int` -/
theorem fits {r : TreeRef} {t : BkTree Entry} {kids : ℕ → List ℕ} (ht : ix.tree r = some t)
    (hinv : BkTree.Inv Entry.word r.words r.d t kids) {w : Word} (hw : w ∈ r.words) {key : ℤ} (h0 : 0 ≤ key)
    (hkey : key < 2 ^ 30) : BkTree.Fits Entry.word r.d t w key := by
  intro i u hu
  have hd := d_le ht (hinv.words i u hu) hw
  have hmax : maxWordLength = 31 := rfl
  simp only [BkTree.intFits]
  omega

theorem pushQuery_word (q : ℕ) (e : Entry) : (pushQuery q e).word = e.word := rfl

/-- **Insertion into a tree.** It is defined for every height, and posts the query under the word. -/
theorem addToTree_spec (h : ix.Ok) {r : TreeRef} {t : BkTree Entry} (ht : ix.tree r = some t) {u : Word}
    (hu : u ∈ r.words) (q : ℕ) {height : ℕ} (hh : height < bkTreeSkipListLevels) :
    ∃ ix', ix.addToTree q u r height = some ix' ∧ ix'.Ok ∧
      ∀ slot u' q', ix'.Posts slot u' q' ↔ ix.Posts slot u' q' ∨ (slot = .tree r ∧ u' = u ∧ q' = q) := by
  obtain ⟨kids, hinv⟩ := h r t ht
  obtain ⟨found, hfind, hsome, hnone⟩ := BkTree.find_spec r.metric hinv hu (fits ht hinv hu le_rfl (by decide))
  simp only [addToTree, ht, Option.bind_some, hfind]
  cases found with
  | none =>
    obtain ⟨t', kids', hins, hinv', hdata⟩ := BkTree.insert_spec r.metric hinv
      (show Entry.word ⟨u, [q]⟩ ∈ r.words from hu) hh
    refine ⟨ix.setTree r t', by simp [hins], setTree_spec h ht hinv' fun u' q' => ?_⟩
    simp [hdata, or_and_right, exists_or, eq_comm]
  | some n =>
    refine ⟨_, rfl, setTree_spec h ht (BkTree.update_inv hinv n (pushQuery_word q)) fun u' q' => ?_⟩
    obtain ⟨node, hnode, hword⟩ := BkTree.node_of_word (hsome n rfl)
    have hn : (t.nodes.map BkNode.data)[n]? = some node.data := by rw [List.getElem?_map, hnode, Option.map_some]
    simp only [BkTree.mem_update_data]
    constructor
    · intro hpost
      obtain ⟨e, ⟨i, e₀, hi, rfl⟩, hu', hq'⟩ := hpost
      by_cases hni : n = i
      · subst hni
        rw [hn] at hi
        cases hi
        simp only [if_true, pushQuery, List.mem_append, List.mem_singleton] at hu' hq'
        rcases hq' with hold | hnew
        · exact .inl ⟨node.data, List.mem_of_getElem? hn, hu', hold⟩
        · exact .inr ⟨hu'.symm.trans hword, hnew⟩
      · rw [if_neg hni] at hu' hq'
        exact .inl ⟨e₀, List.mem_of_getElem? hi, hu', hq'⟩
    · intro hpost
      rcases hpost with ⟨e, he, hu', hq'⟩ | ⟨rfl, rfl⟩
      · obtain ⟨i, hi⟩ := List.mem_iff_getElem?.1 he
        refine ⟨if n = i then pushQuery q e else e, ⟨i, e, hi, rfl⟩, ?_, ?_⟩
        · split <;> exact hu'
        · split
          · exact List.mem_append_left _ hq'
          · exact hq'
      · refine ⟨pushQuery q' node.data, ⟨n, node.data, hn, by rw [if_pos rfl]⟩, hword, ?_⟩
        exact List.mem_append_right _ (List.mem_singleton_self q')

theorem addToHashTable_tree (ix : Index) (q : ℕ) (u : Word) (r : TreeRef) :
    (ix.addToHashTable q u).tree r = ix.tree r := by
  unfold addToHashTable
  split <;> cases r <;> rfl

/-- **Insertion into the table of exact words.** It posts the query under the word. -/
theorem addToHashTable_spec (h : ix.Ok) (q : ℕ) (u : Word) : (ix.addToHashTable q u).Ok ∧
    ∀ slot u' q', (ix.addToHashTable q u).Posts slot u' q' ↔
      ix.Posts slot u' q' ∨ (slot = .exact ∧ u' = u ∧ q' = q) := by
  refine ⟨fun r t ht => h r t (by rwa [addToHashTable_tree] at ht), fun slot u' q' => ?_⟩
  cases slot with
  | tree r => simp [Posts, addToHashTable_tree]
  | exact =>
    simp only [Posts, true_and]
    unfold addToHashTable
    split
    · next hnone =>
      simp only [Table.get_insert_new _ hnone]
      by_cases hu : u = u'
      · subst hu
        simp [hnone]
      · simp [hu, eq_comm]
    · next payload hsome =>
      simp only [Table.get_modify]
      by_cases hu : u' = u
      · subst hu
        simp [hsome]
      · simp [hu]

theorem asInt_of_lt {k : ℕ} (h : k < 2 ^ 31) : asInt k = k := by
  have hmod : k % 2 ^ 32 = k := Nat.mod_eq_of_lt (by omega)
  rw [asInt, hmod, if_pos h]

/-- **A search of a tree.** It is defined, and finds the active queries with this threshold under the words of the tree
that are within it. -/
theorem search_spec (h : ix.Ok) {r : TreeRef} {t : BkTree Entry} (ht : ix.tree r = some t) {w : Word}
    (hw : w ∈ r.words) {key : ℕ} (hkey : key < 2 ^ 30) (queries : List Query) :
    ∃ found, ix.search queries r key w = some found ∧ ∀ q u, (q, u) ∈ found ↔
      ix.Posts (.tree r) u q ∧ r.d u w ≤ key ∧ wanted queries key q = true := by
  obtain ⟨kids, hinv⟩ := h r t ht
  have hint : asInt key = key := asInt_of_lt (by omega)
  obtain ⟨nodes, hmatch, -, hmem⟩ := BkTree.match_spec r.metric hinv hw
    (fits ht hinv hw (Int.natCast_nonneg key) (by exact_mod_cast hkey))
  refine ⟨_, by rw [search, ht, Option.bind_some, hint, hmatch, Option.map_some], fun q u => ?_⟩
  have hdata : ∀ e, (∃ i ∈ nodes, (t.nodes[i]?).map BkNode.data = some e) ↔
      e ∈ t.nodes.map BkNode.data ∧ r.d e.word w ≤ key := by
    intro e
    simp only [hmem, BkTree.Within, BkTree.wordOf, List.mem_iff_getElem?, List.getElem?_map]
    constructor
    · intro he
      obtain ⟨i, ⟨v, hv, hle⟩, hi⟩ := he
      obtain ⟨node, hnode, rfl⟩ := Option.map_eq_some_iff.1 hi
      rw [hnode] at hv
      cases hv
      exact ⟨⟨i, by rw [hnode]; rfl⟩, hle⟩
    · intro he
      obtain ⟨⟨i, hi⟩, hle⟩ := he
      obtain ⟨node, hnode, rfl⟩ := Option.map_eq_some_iff.1 hi
      exact ⟨i, ⟨node.data.word, by rw [hnode]; rfl, hle⟩, hi⟩
  simp only [List.mem_flatMap, List.mem_filterMap, List.mem_map, List.mem_filter, Prod.mk.injEq, Posts, ht,
    Option.some.injEq, exists_eq_left']
  constructor
  · intro hf
    obtain ⟨e, he, mq, ⟨hmq, hwant⟩, rfl, rfl⟩ := hf
    obtain ⟨hmem', hle⟩ := (hdata e).1 he
    exact ⟨⟨e, List.mem_map.1 hmem', rfl, hmq⟩, hle, hwant⟩
  · intro hf
    obtain ⟨⟨e, he, rfl, hq⟩, hle, hwant⟩ := hf
    exact ⟨e, (hdata e).2 ⟨List.mem_map.2 he, hle⟩, q, ⟨hq, hwant⟩, rfl, rfl⟩

/-- **A search of the table of exact words** finds the active queries under the word -/
theorem mem_searchExact (ix : Index) (queries : List Query) (w : Word) (q : ℕ) (u : Word) :
    (q, u) ∈ ix.searchExact queries w ↔ ix.Posts .exact u q ∧ u = w ∧ (queries[q]?).any Query.active = true := by
  unfold searchExact
  simp only [Posts]
  cases hget : ix.exact.get w with
  | none =>
    simp only [List.not_mem_nil, false_iff]
    intro hp
    obtain ⟨⟨payload, hpay, -⟩, rfl, -⟩ := hp
    rw [hget] at hpay
    cases hpay
  | some payload =>
    simp only [List.mem_map, List.mem_filter, Prod.mk.injEq]
    constructor
    · intro hp
      obtain ⟨mq, ⟨hmq, hact⟩, rfl, rfl⟩ := hp
      exact ⟨⟨payload, hget, hmq⟩, rfl, hact⟩
    · intro hp
      obtain ⟨⟨payload', hpay, hq⟩, rfl, hact⟩ := hp
      rw [hget] at hpay
      cases hpay
      exact ⟨q, ⟨hq, hact⟩, rfl, rfl⟩

end Index

end K23Search.Core
