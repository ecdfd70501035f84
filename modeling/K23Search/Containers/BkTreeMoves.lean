/-
The move operations and the destructor of `qs::bk_tree` (include/qs/bk_tree.hpp).

Both moves take the `root` and the `dist_func` of the other tree. `std::move` of a raw pointer copies it, so the other
tree keeps its `root`, and `depth` is left alone: 0 in a new tree, its own in a tree that is assigned to. `match` and
`find` make their stack of twice that `depth`. The heap goes with the `root`; the target of an assignment has deleted
its own.

Results:
- `destroy_spec`: the destructor of a tree deletes each of its nodes once;
- `construct_throws`, `assign_answers`: a new tree throws on every search once there is a root, and an assigned one
  answers like the original if anything was ever inserted into it before;
- `moves_iff`: a move keeps its promise for empty trees only.
-/
import K23Search.Containers.BkTree

namespace K23Search.BkTree

open K23Search.Lib K23Search.Text

variable {T W : Type}

/-! ## Model -/

/-- a tree with its `dist_func` -/
structure Object (T W : Type) where
  tree : BkTree T
  distFunc : W → W → Option ℤ

namespace Object

def «match» (view : T → W) (o : Object T W) (threshold : ℤ) (query : W) : Option (List ℕ) :=
  o.tree.match view o.distFunc threshold query

def find (view : T → W) (o : Object T W) (what : W) : Option (Option ℕ) := o.tree.find view o.distFunc what

/-- `bk_tree(bk_tree &&other)`: the new tree and `other` -/
def moveConstruct (other : Object T W) : Object T W × Object T W :=
  (⟨⟨other.tree.nodes, other.tree.root, 0⟩, other.distFunc⟩, other)

/-- `operator=(bk_tree &&other)` of another tree: `*this` and `other` -/
def moveAssign (this other : Object T W) : Object T W × Object T W :=
  (⟨⟨other.tree.nodes, other.tree.root, this.tree.depth⟩, other.distFunc⟩, other)

end Object

/-- the loop of `~bk_tree_node` over the children -/
def deleteChildren (deleteNode : ℕ → Option (List ℕ)) (children : List ℕ) (gone : List ℕ) : Option (List ℕ) :=
  children.foldlM (fun gone child => (deleteNode child).map fun l => gone ++ l) gone

/-- `delete` of a node: the nodes that are gone, in this order -/
def deleteNode (nodes : List (BkNode T)) : ℕ → ℕ → Option (List ℕ)
  | 0, _ => none
  | fuel + 1, n => nodes[n]?.bind fun node => node.children.toList.bind fun children =>
    (deleteChildren (deleteNode nodes fuel) children []).map fun gone => gone ++ [n]

/-- `~bk_tree()` -/
def destroy (t : BkTree T) : Option (List ℕ) :=
  match t.root with
  | none => some []
  | some root => deleteNode t.nodes t.nodes.length root

/-- what a move promises: the tree answers like the original, and what is left of that owns no node -/
structure Moved (view : T → W) (original : Object T W) (r : Object T W × Object T W) : Prop where
  answers : ∀ threshold query l, original.match view threshold query = some l → r.1.match view threshold query = some l
  finds : ∀ what n, original.find view what = some n → r.1.find view what = some n
  released : r.2.tree.destroy = some []

/-! ## The destructor -/

section Destroy

/-- subtrees that are apart are deleted one after the other -/
theorem deleteChildren_spec {f : ℕ → Option (List ℕ)} {below : ℕ → ℕ → Prop} {children : List ℕ}
    (hf : ∀ c ∈ children, ∃ l, f c = some l ∧ l.Nodup ∧ ∀ i, i ∈ l ↔ below c i)
    (hapart : children.Pairwise fun c c' => ∀ i, below c i → ¬ below c' i) {gone : List ℕ} (hnd : gone.Nodup)
    (hgone : ∀ c ∈ children, ∀ i, below c i → i ∉ gone) :
    ∃ l, deleteChildren f children gone = some l ∧ l.Nodup ∧ ∀ i, i ∈ l ↔ i ∈ gone ∨ ∃ c ∈ children, below c i := by
  induction children generalizing gone with
  | nil => exact ⟨gone, rfl, hnd, by simp⟩
  | cons c children ih =>
    obtain ⟨hc, hrest⟩ := List.pairwise_cons.1 hapart
    obtain ⟨l, hl, hlnd, hlmem⟩ := hf c List.mem_cons_self
    have hnd' : (gone ++ l).Nodup := by
      refine List.nodup_append.2 ⟨hnd, hlnd, fun i hi j hj hij => ?_⟩
      exact hgone c List.mem_cons_self j ((hlmem j).1 hj) (hij ▸ hi)
    obtain ⟨l', hl', hnd'', hmem⟩ := ih (fun e he => hf e (List.mem_cons_of_mem _ he)) hrest hnd' (by
      intro e he i hi hmem
      rcases List.mem_append.1 hmem with hmem | hmem
      · exact hgone e (List.mem_cons_of_mem _ he) i hi hmem
      · exact hc e he i ((hlmem i).1 hmem) hi)
    refine ⟨l', ?_, hnd'', fun i => ?_⟩
    · rw [deleteChildren, List.foldlM_cons, hl]
      exact hl'
    · rw [hmem, List.mem_append, hlmem, List.exists_mem_cons_iff, or_assoc]

variable {view : T → W} {dist : W → W → Option ℤ} {S : Set W} {d : W → W → ℤ} {t : BkTree T} {kids : ℕ → List ℕ}

/-- children are newer than their parent, so the recursion ends -/
theorem deleteNode_spec (h : Inv view S d t kids) {fuel n : ℕ} (hn : n < t.nodes.length)
    (hf : t.nodes.length ≤ fuel + n) :
    ∃ l, deleteNode t.nodes fuel n = some l ∧ l.Nodup ∧ ∀ i, i ∈ l ↔ Desc (fun p c => c ∈ kids p) n i := by
  induction fuel generalizing n with
  | zero => omega
  | succ fuel ih =>
    obtain ⟨node, hnode⟩ : ∃ node, t.nodes[n]? = some node := ⟨_, List.getElem?_eq_getElem hn⟩
    have hchildren := SkipList.toList_spec (h.holds n node hnode)
    have hapart : (kids n).Pairwise fun c c' => ∀ i, Desc (fun p c => c ∈ kids p) c i →
        ¬ Desc (fun p c => c ∈ kids p) c' i := by
      refine (h.kids_nodup n).imp_of_mem fun {c c'} hc hc' hne i hi hi' => ?_
      exact h.forest.apart hc hc' hne hi hi'
    obtain ⟨l, hl, hnd, hmem⟩ := deleteChildren_spec (f := deleteNode t.nodes fuel)
      (fun c hc => ih (h.kids_lt n c hc).2 (by have := (h.kids_lt n c hc).1; omega)) hapart List.nodup_nil (by simp)
    have hiff : ∀ i, i ∈ l ++ [n] ↔ Desc (fun p c => c ∈ kids p) n i := by
      intro i
      have hhead : Desc (fun p c => c ∈ kids p) n i ↔ n = i ∨ ∃ c ∈ kids n, Desc (fun p c => c ∈ kids p) c i :=
        Relation.ReflTransGen.cases_head_iff
      rw [List.mem_append, hmem, List.mem_singleton, hhead]
      constructor
      · rintro ((hi | hi) | rfl)
        · cases hi
        · exact .inr hi
        · exact .inl rfl
      · rintro (rfl | hi)
        · exact .inr rfl
        · exact .inl (.inr hi)
    refine ⟨l ++ [n], ?_, ?_, hiff⟩
    · rw [deleteNode, hnode, Option.bind_some, hchildren, Option.bind_some, hl, Option.map_some]
    · refine List.nodup_append.2 ⟨hnd, List.nodup_singleton n, fun i hi j hj hij => ?_⟩
      rw [List.mem_singleton.1 hj] at hij
      rcases (hmem i).1 hi with hi | ⟨c, hc, hdesc⟩
      · cases hi
      · have hle := h.forest.rank_le hdesc
        have hlt := (h.kids_lt n c hc).1
        simp only [id_eq] at hle
        omega

/-- **The destructor** deletes every node of the tree, once. -/
theorem destroy_spec (h : Inv view S d t kids) :
    ∃ l, t.destroy = some l ∧ l.Nodup ∧ ∀ i, i ∈ l ↔ i < t.nodes.length := by
  by_cases hnil : t.nodes = []
  · exact ⟨[], by rw [destroy, h.root_eq, if_pos hnil], List.nodup_nil, by simp [hnil]⟩
  · obtain ⟨l, hl, hnd, hmem⟩ := deleteNode_spec h (List.length_pos_of_ne_nil hnil)
      (by omega : t.nodes.length ≤ t.nodes.length + 0)
    refine ⟨l, by rw [destroy, h.root_eq, if_neg hnil]; exact hl, hnd, fun i => ?_⟩
    rw [hmem]
    constructor
    · intro hd
      rcases hd.cases_tail with rfl | ⟨p, -, hp⟩
      · exact List.length_pos_of_ne_nil hnil
      · exact (h.kids_lt p i hp).2
    · exact h.reach i

end Destroy

/-! ## Searches with another depth -/

section Depth

variable {view : T → W} {dist : W → W → Option ℤ}

/-- two stacks that hold the same -/
def SameStack (st st' : Stack) : Prop := ∃ todo, StackRep st todo ∧ StackRep st' todo

/-- both stacks are empty, or have the same index on top -/
theorem SameStack.cases {st st' : Stack} (h : SameStack st st') :
    st.pos = 0 ∧ st'.pos = 0 ∨
      st'.pos = st.pos ∧ ∃ p u u', st.pop = some (p, u) ∧ st'.pop = some (p, u') ∧ SameStack u u' := by
  obtain ⟨todo, hst, hst'⟩ := h
  rcases List.eq_nil_or_concat' todo with rfl | ⟨todo, p, rfl⟩
  · exact .inl ⟨hst.pos_eq, hst'.pos_eq⟩
  · obtain ⟨u, hu, hrep⟩ := hst.pop
    obtain ⟨u', hu', hrep'⟩ := hst'.pop
    exact .inr ⟨hst'.pos_eq.trans hst.pos_eq.symm, p, u, u', hu, hu', todo, hrep, hrep'⟩

theorem bind_same {A : Type} {a b : Option Stack} {f g : Stack → Option A} (h : Option.Rel SameStack a b)
    (hfg : ∀ {st st'}, SameStack st st' → f st' = g st) : b.bind f = a.bind g := by
  cases h with
  | none => rfl
  | some hsame => exact hfg hsame

theorem pushChildren_same {nodes : List (BkNode T)} {lower upper : ℤ} (children : List ℕ) {st st' : Stack}
    (h : SameStack st st') :
    Option.Rel SameStack (pushChildren anyPos nodes lower upper children st)
      (pushChildren anyPos nodes lower upper children st') := by
  induction children generalizing st st' with
  | nil => exact .some h
  | cons c children ih =>
    rw [pushChildren, pushChildren]
    cases nodes[c]? with
    | none => exact .none
    | some node =>
      simp only [Option.bind_some]
      by_cases hlow : node.distanceFromParent < lower
      · rw [if_pos hlow, if_pos hlow]
        exact ih h
      · rw [if_neg hlow, if_neg hlow]
        by_cases hup : node.distanceFromParent ≤ upper
        · obtain ⟨todo, hst, hst'⟩ := h
          obtain ⟨u, hu, hrep⟩ := hst.push c (anyPos_eq _)
          obtain ⟨u', hu', hrep'⟩ := hst'.push c (anyPos_eq _)
          rw [if_pos hup, if_pos hup, hu, hu']
          exact ih ⟨_, hrep, hrep'⟩
        · rw [if_neg hup, if_neg hup]
          exact .some h

variable {t t' : BkTree T}

theorem pushWindow_same (hn : t'.nodes = t.nodes) (node : BkNode T) (D threshold : ℤ) {st st' : Stack}
    (h : SameStack st st') :
    Option.Rel SameStack (t.pushWindow anyPos node D threshold st) (t'.pushWindow anyPos node D threshold st') := by
  rw [pushWindow, pushWindow, hn]
  cases toInt (D - threshold) with
  | none => exact .none
  | some lower => cases toInt (D + threshold) with
    | none => exact .none
    | some upper => cases node.children.toList with
      | none => exact .none
      | some children => exact pushChildren_same children h

theorem matchLoop_same (hn : t'.nodes = t.nodes) (threshold : ℤ) (query : W) (fuel : ℕ) {st st' : Stack}
    (h : SameStack st st') (ret : List ℕ) :
    matchLoop view dist anyPos t' threshold query fuel st' ret =
      matchLoop view dist anyPos t threshold query fuel st ret := by
  induction fuel generalizing st st' ret with
  | zero => rfl
  | succ fuel ih =>
    rw [matchLoop, matchLoop, hn]
    rcases h.cases with ⟨hz, hz'⟩ | ⟨hpos, p, u, u', hu, hu', hrest⟩
    · rw [if_pos hz, if_pos hz']
    · rw [hpos]
      simp only [hu, hu', Option.bind_some]
      congr 2
      funext node
      congr 1
      funext D
      exact bind_same (pushWindow_same hn node D threshold hrest) fun hsame => ih hsame _

theorem findLoop_same (hn : t'.nodes = t.nodes) (what : W) (fuel : ℕ) {st st' : Stack} (h : SameStack st st') :
    findLoop view dist t' what fuel st' = findLoop view dist t what fuel st := by
  induction fuel generalizing st st' with
  | zero => rfl
  | succ fuel ih =>
    rw [findLoop, findLoop, hn]
    rcases h.cases with ⟨hz, hz'⟩ | ⟨hpos, p, u, u', hu, hu', hrest⟩
    · rw [if_pos hz, if_pos hz']
    · rw [hpos]
      simp only [hu, hu', Option.bind_some]
      congr 2
      funext node
      congr 1
      funext D
      congr 1
      exact bind_same (pushWindow_same hn node D 0 hrest) fun hsame => ih hsame

/-- the depth of a tree only sizes the stack, which grows when it has a place at all -/
theorem answers_same (hn : t'.nodes = t.nodes) (hr : t'.root = t.root) (hd : 1 ≤ t.depth) (hd' : 1 ≤ t'.depth) :
    (∀ threshold query, t'.match view dist threshold query = t.match view dist threshold query) ∧
      ∀ what, t'.find view dist what = t.find view dist what := by
  have hstart : ∀ root, ∃ st st', t.startStack anyPos root = some st ∧ t'.startStack anyPos root = some st' ∧
      SameStack st st' := by
    intro root
    obtain ⟨st, hst, hrep⟩ := startStack_spec hd root (anyPos_eq 1)
    obtain ⟨st', hst', hrep'⟩ := startStack_spec hd' root (anyPos_eq 1)
    exact ⟨st, st', hst, hst', [root], hrep, hrep'⟩
  constructor
  · intro threshold query
    rw [BkTree.match, BkTree.match, matchWithin, matchWithin, hr, hn]
    cases t.root with
    | none => rfl
    | some root =>
      obtain ⟨st, st', hst, hst', hsame⟩ := hstart root
      simp only [hst, hst', Option.bind_some]
      exact matchLoop_same hn threshold query _ hsame []
  · intro what
    rw [BkTree.find, BkTree.find, hr, hn]
    cases t.root with
    | none => rfl
    | some root =>
      obtain ⟨st, st', hst, hst', hsame⟩ := hstart root
      simp only [hst, hst', Option.bind_some]
      exact findLoop_same hn what _ hsame

end Depth

/-! ## Moves -/

section Moves

variable {view : T → W} {dist : W → W → Option ℤ} {t : BkTree T} {xs : List (T × ℕ)}

/-- an insert leaves a root and counts its level -/
theorem insert_rooted {data : T} {height : ℕ} {t' : BkTree T} (ht : t.root ≠ none → 1 ≤ t.depth)
    (h : insert view dist t data height = some t') : t'.root ≠ none ∧ 1 ≤ t'.depth := by
  rw [insert] at h
  cases hroot : t.root with
  | none =>
    simp only [hroot, Option.some.injEq] at h
    subst h
    exact ⟨by simp, by simp⟩
  | some root =>
    have hdepth := ht (by rw [hroot]; simp)
    simp only [hroot] at h
    obtain ⟨r, -, rfl⟩ := Option.map_eq_some_iff.1 h
    refine ⟨by simp, ?_⟩
    simp only
    split <;> omega

/-- the root of a tree and its depth, after any inserts -/
theorem run_rooted (h : run (step view dist) empty xs = some t) :
    (xs = [] → t = empty) ∧ (xs ≠ [] → t.root ≠ none ∧ 1 ≤ t.depth) := by
  induction xs using List.reverseRecOn generalizing t with
  | nil => exact ⟨fun _ => (Option.some.inj h).symm, fun hne => absurd rfl hne⟩
  | append_singleton xs x ih =>
    obtain ⟨u, hu, hins⟩ := run_snoc_some h
    have hdepth : u.root ≠ none → 1 ≤ u.depth := by
      intro hroot
      by_cases hnil : xs = []
      · rw [(ih hu).1 hnil] at hroot
        exact absurd rfl hroot
      · exact ((ih hu).2 hnil).2
    exact ⟨fun hnil => absurd hnil (by simp), fun _ => insert_rooted hdepth hins⟩

/-- a stack of capacity 0 has no place for the root -/
theorem construct_throws (view : T → W) (o : Object T W) (hroot : o.tree.root ≠ none) :
    (∀ threshold query, o.moveConstruct.1.match view threshold query = none) ∧
      ∀ what, o.moveConstruct.1.find view what = none := by
  obtain ⟨root, hr⟩ := Option.ne_none_iff_exists'.1 hroot
  have hstart : o.moveConstruct.1.tree.startStack anyPos root = none := rfl
  have hr' : o.moveConstruct.1.tree.root = some root := hr
  constructor
  · intro threshold query
    rw [Object.match, BkTree.match, matchWithin, hr']
    simp only [hstart, Option.bind_none]
  · intro what
    rw [Object.find, BkTree.find, hr']
    simp only [hstart, Option.bind_none]

/-- a tree that had nodes of its own has a depth for the stack -/
theorem assign_answers (view : T → W) (this o : Object T W) (hthis : 1 ≤ this.tree.depth) (hdepth : 1 ≤ o.tree.depth) :
    (∀ threshold query, (this.moveAssign o).1.match view threshold query = o.match view threshold query) ∧
      ∀ what, (this.moveAssign o).1.find view what = o.find view what :=
  answers_same rfl rfl hdepth hthis

/-- a tree with a root owns it -/
theorem destroy_ne_nil (hroot : t.root ≠ none) : t.destroy ≠ some [] := by
  obtain ⟨root, hr⟩ := Option.ne_none_iff_exists'.1 hroot
  intro h
  rw [destroy, hr] at h
  simp only at h
  cases hn : t.nodes.length with
  | zero => rw [hn, deleteNode] at h; cases h
  | succ fuel =>
    rw [hn, deleteNode] at h
    obtain ⟨node, -, h⟩ := Option.bind_eq_some_iff.1 h
    obtain ⟨children, -, h⟩ := Option.bind_eq_some_iff.1 h
    obtain ⟨gone, -, h⟩ := Option.map_eq_some_iff.1 h
    simp at h

/-- the destructor of the tree that was moved from deletes every node of the new one -/
theorem left_deletes {S : Set W} {d : W → W → ℤ} {kids : ℕ → List ℕ} (h : Inv view S d t kids) :
    ∃ l, (Object.moveConstruct ⟨t, dist⟩).2.tree.destroy = some l ∧
      ∀ i < (Object.moveConstruct (⟨t, dist⟩ : Object T W)).1.tree.nodes.length, i ∈ l := by
  obtain ⟨l, hl, -, hmem⟩ := destroy_spec h
  exact ⟨l, hl, fun i hi => (hmem i).2 hi⟩

/-- a tree without nodes stays one, whatever depth it gets -/
theorem moved_empty (view : T → W) (dist : W → W → Option ℤ) (depth : ℕ) :
    Moved view ⟨empty, dist⟩ (⟨⟨[], none, depth⟩, dist⟩, ⟨empty, dist⟩) :=
  ⟨fun _ _ _ h => h, fun _ _ h => h, rfl⟩

/-- **Moves.** After any inserts, a move keeps its promise exactly when the tree is empty, whether it makes a new tree
or assigns to one in any state. Otherwise a new tree throws on every search; one that is assigned to answers like the
original if it had a `depth` of its own; and the other tree keeps the root. -/
theorem moves_iff (h : run (step view dist) empty xs = some t) (this : Object T W) :
    (Moved view ⟨t, dist⟩ (Object.moveConstruct ⟨t, dist⟩) ↔ xs = []) ∧
    (Moved view ⟨t, dist⟩ (this.moveAssign ⟨t, dist⟩) ↔ xs = []) ∧
    (xs ≠ [] →
      (∀ threshold query, (Object.moveConstruct ⟨t, dist⟩).1.match view threshold query = none) ∧
      (∀ what, (Object.moveConstruct ⟨t, dist⟩).1.find view what = none) ∧
      (1 ≤ this.tree.depth → ∀ threshold query what,
        (this.moveAssign ⟨t, dist⟩).1.match view threshold query = t.match view dist threshold query ∧
        (this.moveAssign ⟨t, dist⟩).1.find view what = t.find view dist what)) := by
  obtain ⟨hempty, hfull⟩ := run_rooted h
  have hkeeps : ∀ r : Object T W × Object T W, r.2.tree = t → Moved view ⟨t, dist⟩ r → xs = [] := by
    intro r hr hmoved
    by_contra hne
    have hreleased := hmoved.released
    rw [hr] at hreleased
    exact destroy_ne_nil (hfull hne).1 hreleased
  refine ⟨⟨hkeeps _ rfl, fun hnil => ?_⟩, ⟨hkeeps _ rfl, fun hnil => ?_⟩, fun hne => ?_⟩
  · rw [hempty hnil]
    exact moved_empty view dist 0
  · rw [hempty hnil]
    exact moved_empty view dist this.tree.depth
  · obtain ⟨hroot, hdepth⟩ := hfull hne
    obtain ⟨hmatch, hfind⟩ := construct_throws view ⟨t, dist⟩ hroot
    refine ⟨hmatch, hfind, fun hthis threshold query what => ?_⟩
    have hsame := assign_answers view this ⟨t, dist⟩ hthis hdepth
    exact ⟨hsame.1 threshold query, hsame.2 what⟩

/-- a tree of two words, moved and assigned to a new one -/
theorem moves_two :
    ∃ t, run (step id hammingDistance) empty [([104, 101], 1), ([97, 98], 0)] = some t ∧
      ¬ Moved id ⟨t, hammingDistance⟩ (Object.moveConstruct ⟨t, hammingDistance⟩) ∧
      ¬ Moved id ⟨t, hammingDistance⟩ (Object.moveAssign ⟨empty, hammingDistance⟩ ⟨t, hammingDistance⟩) := by
  obtain ⟨t, ht⟩ : ∃ t, run (step id hammingDistance) empty [([104, 101], 1), ([97, 98], 0)] = some t := ⟨_, rfl⟩
  have hiff := moves_iff ht ⟨empty, hammingDistance⟩
  exact ⟨t, ht, fun h => by simpa using hiff.1.1 h, fun h => by simpa using hiff.2.1.1 h⟩

/-- **One word.** The tree finds it and its destructor deletes one node; the tree made from it by a move throws, and the
one that was moved from still deletes that node. -/
theorem move_one_word :
    ∃ t, run (step id hammingDistance) empty [([104, 101], 1)] = some t ∧
      Object.match id ⟨t, hammingDistance⟩ 0 [104, 101] = some [0] ∧
      (Object.moveConstruct ⟨t, hammingDistance⟩).1.match id 0 [104, 101] = none ∧
      (Object.moveConstruct ⟨t, hammingDistance⟩).2.tree.destroy = some [0] ∧
      ¬ Moved id ⟨t, hammingDistance⟩ (Object.moveConstruct ⟨t, hammingDistance⟩) := by
  refine ⟨⟨[newNode [104, 101]], some 0, 1⟩, rfl, by decide, by decide, by decide, fun h => ?_⟩
  have hnone := h.answers 0 [104, 101] [0] (by decide)
  exact absurd hnone (by decide)

end Moves

end K23Search.BkTree
