/-
`qs::bk_tree` (include/qs/bk_tree.hpp). The nodes live in a heap and are named by their position in it, which is the
number of the `insert` call that made them; `T*` results of `match` and `find` name the node too. The children of a
node are a `skip_list` of node names, compared by `distance_from_parent`. `view` is `get_string_view()` and `dist` is
`dist_func`, which may throw (`none`).

`match` and `find` keep their stack in a `qs::vector`. A `set` or `at` out of bounds, an overflow of `D - threshold` or
`D + threshold` and a loop that does not end are `none`. `fits` says which values `curr_stack_pos` can take: those of an
`int` in `BkTreeStack`, all of them in `match`. A node of the engine's trees has 32 children at most, one for each
distance of words of up to 31 letters, so that 2^31 nodes wait in more than 2^26 levels only.

Results, for a distance that is a metric on a set of words (`MetricOn`):
- `insert_spec`: an `insert` of a word of the set is defined, for every height, and keeps `Inv`;
- `matchWithin_spec`: in a tree of `Inv`, `match` is defined and returns the nodes within the threshold, each once, if
  `curr_stack_pos` can take the values that it takes; `match_spec`: it is and does, if it can take all;
- `find_spec`: `find` is defined and returns a node with the word, if there is one.
-/
import K23Search.Lib.DepthFirst
import K23Search.Lib.Run
import K23Search.Text.Distances
import K23Search.Containers.SkipList
import K23Search.Containers.Vector

namespace K23Search

open K23Search.Lib K23Search.Text

/-! ## Model -/

/-- `QS_BK_TREE_SKIP_LIST_LEVELS` -/
def bkTreeSkipListLevels : ℕ := 4

theorem bkTreeSkipListLevels_pos : 0 < bkTreeSkipListLevels := by decide

structure BkNode (T : Type) where
  data : T
  distanceFromParent : ℤ
  children : SkipList ℕ bkTreeSkipListLevels

structure BkTree (T : Type) where
  /-- the heap: the nodes made so far -/
  nodes : List (BkNode T)
  root : Option ℕ
  depth : ℕ

namespace BkTree

variable {T W : Type}

def empty : BkTree T := ⟨[], none, 0⟩

/-- the value fits an `int` -/
def intFits (x : ℤ) : Prop := -2 ^ 31 ≤ x ∧ x < 2 ^ 31

instance (x : ℤ) : Decidable (intFits x) := inferInstanceAs (Decidable (_ ∧ _))

def toInt (x : ℤ) : Option ℤ := if intFits x then some x else none

/-- `distance_from_parent` of a node -/
def distanceOf (nodes : List (BkNode T)) (n : ℕ) : ℤ := (nodes[n]?).elim 0 BkNode.distanceFromParent

/-- `sl_compare_func` -/
def slCompare (nodes : List (BkNode T)) (n1 n2 : ℕ) : ℤ := distanceOf nodes n1 - distanceOf nodes n2

/-- `new bk_tree_node{data}` -/
def newNode (data : T) : BkNode T := ⟨data, 0, SkipList.empty⟩

def setDistance (nodes : List (BkNode T)) (n : ℕ) (distance : ℤ) : List (BkNode T) :=
  nodes.modify n fun node => { node with distanceFromParent := distance }

def setChildren (nodes : List (BkNode T)) (n : ℕ) (children : SkipList ℕ bkTreeSkipListLevels) : List (BkNode T) :=
  nodes.modify n fun node => { node with children := children }

section Insert

variable (view : T → W) (dist : W → W → Option ℤ)

/-- `curr_node->children.insert(new_child)` -/
def attach (nodes : List (BkNode T)) (curr : BkNode T) (currNode newChild height : ℕ) : Option (List (BkNode T)) :=
  (curr.children.insert (slCompare nodes) newChild height).map fun children => setChildren nodes currNode children

/-- the loop of `insert`: the heap and `local_depth` -/
def insertLoop (newChild height : ℕ) : ℕ → List (BkNode T) → ℕ → ℕ → Option (List (BkNode T) × ℕ)
  | 0, _, _, _ => none
  | fuel + 1, nodes, currNode, localDepth =>
    nodes[currNode]?.bind fun curr => nodes[newChild]?.bind fun new =>
    (dist (view curr.data) (view new.data)).bind fun distance =>
      let nodes := setDistance nodes newChild distance
      if 0 < curr.children.size then
        (curr.children.find (slCompare nodes) newChild).bind fun
          | none => (attach nodes curr currNode newChild height).map fun nodes => (nodes, localDepth + 1)
          | some res => (curr.children.value res).bind fun next =>
            insertLoop newChild height fuel nodes next (localDepth + 1)
      else (attach nodes curr currNode newChild height).map fun nodes => (nodes, localDepth + 1)

/-- `insert`, with the height its skip list insertion draws -/
def insert (t : BkTree T) (data : T) (height : ℕ) : Option (BkTree T) :=
  let newChild := t.nodes.length
  let nodes := t.nodes ++ [newNode data]
  match t.root with
  | none => some ⟨nodes, some newChild, t.depth + 1⟩
  | some root => (insertLoop view dist newChild height nodes.length nodes root 1).map fun (nodes, localDepth) =>
    ⟨nodes, some root, if t.depth < localDepth then localDepth else t.depth⟩

end Insert

section Search

variable (view : T → W) (dist : W → W → Option ℤ) (fits : ℕ → Bool)

/-- the stack and `curr_stack_pos`, which is never negative -/
structure Stack where
  vec : Vector ℕ
  pos : ℕ

/-- the bytes of a pointer are the pointer anywhere, also behind its destruction -/
def keepsPointer (_ : ℕ) : Bool := true

/-- `stack.set(curr_stack_pos++, n)` -/
def Stack.push (st : Stack) (n : ℕ) : Option Stack :=
  if fits (st.pos + 1) then (st.vec.set keepsPointer keepsPointer st.pos (.object n)).map fun vec => ⟨vec, st.pos + 1⟩ else none

/-- `stack.at(--curr_stack_pos)` -/
def Stack.pop (st : Stack) : Option (ℕ × Stack) := (st.vec.at (st.pos - 1)).map fun n => (n, ⟨st.vec, st.pos - 1⟩)

/-- the loop over the children: skip those below the window, push those in it, stop after it -/
def pushChildren (nodes : List (BkNode T)) (lower upper : ℤ) : List ℕ → Stack → Option Stack
  | [], st => some st
  | child :: children, st => nodes[child]?.bind fun node =>
    if node.distanceFromParent < lower then pushChildren nodes lower upper children st
    else if node.distanceFromParent ≤ upper then
      (st.push fits child).bind fun st => pushChildren nodes lower upper children st
    else some st

/-- the end of a turn of either search: the window around `D` and the children in it -/
def pushWindow (t : BkTree T) (node : BkNode T) (D threshold : ℤ) (st : Stack) : Option Stack :=
  (toInt (D - threshold)).bind fun lower => (toInt (D + threshold)).bind fun upper =>
    node.children.toList.bind fun children => pushChildren fits t.nodes lower upper children st

/-- the loop of `match`; `ret` is the list returned -/
def matchLoop (t : BkTree T) (threshold : ℤ) (query : W) : ℕ → Stack → List ℕ → Option (List ℕ)
  | 0, _, _ => none
  | fuel + 1, st, ret =>
    if st.pos = 0 then some ret
    else st.pop.bind fun (curr, st) => t.nodes[curr]?.bind fun node => (dist (view node.data) query).bind fun D =>
      let ret := if D ≤ threshold then ret ++ [curr] else ret
      (t.pushWindow fits node D threshold st).bind fun st => matchLoop t threshold query fuel st ret

def startStack (t : BkTree T) (root : ℕ) : Option Stack := Stack.push fits ⟨Vector.ofCapacity (t.depth * 2), 0⟩ root

/-- `match(threshold, query)` -/
def matchWithin (t : BkTree T) (threshold : ℤ) (query : W) : Option (List ℕ) :=
  match t.root with
  | none => some []
  | some root => (t.startStack fits root).bind fun st =>
    matchLoop view dist fits t threshold query (t.nodes.length + 1) st []

/-- a `curr_stack_pos` that can take every value -/
def anyPos (_ : ℕ) : Bool := true

/-- `match(threshold, query)`, where `curr_stack_pos` does not overflow -/
def «match» (t : BkTree T) (threshold : ℤ) (query : W) : Option (List ℕ) :=
  matchWithin view dist anyPos t threshold query

/-- the loop of `find`; one child at most is in the window, so that `curr_stack_pos` is 0 or 1 -/
def findLoop (t : BkTree T) (what : W) : ℕ → Stack → Option (Option ℕ)
  | 0, _ => none
  | fuel + 1, st =>
    if st.pos = 0 then some none
    else st.pop.bind fun (curr, st) => t.nodes[curr]?.bind fun node => (dist (view node.data) what).bind fun D =>
      if D = 0 then some (some curr)
      else (t.pushWindow anyPos node D 0 st).bind fun st => findLoop t what fuel st

/-- `find(what)` -/
def find (t : BkTree T) (what : W) : Option (Option ℕ) :=
  match t.root with
  | none => some none
  | some root => (t.startStack anyPos root).bind fun st => findLoop view dist t what (t.nodes.length + 1) st

end Search

/-! ## The stack -/

/-- the stack holds `todo`, the last element on top -/
structure StackRep (st : Stack) (todo : List ℕ) : Prop where
  roomy : st.vec.Roomy
  objects : ∀ c ∈ st.vec.data, c ≠ none
  pos_eq : st.pos = todo.length
  take_eq : st.vec.data.take st.pos = todo.map some

theorem anyPos_eq (pos : ℕ) : anyPos pos = true := rfl

section Stack

variable {fits : ℕ → Bool} {st : Stack} {todo : List ℕ}

theorem StackRep.pos_le (h : StackRep st todo) : st.pos ≤ st.vec.size := by
  have := congrArg List.length h.take_eq
  rw [List.length_take, List.length_map, ← h.pos_eq] at this
  rw [Vector.size]
  omega

theorem StackRep.push (h : StackRep st todo) (n : ℕ) (hfits : fits (todo.length + 1) = true) :
    ∃ st', st.push fits n = some st' ∧ StackRep st' (todo ++ [n]) := by
  obtain ⟨vec, hvec, htake, hroomy, -, hmem⟩ := Vector.set_spec h.roomy h.objects (fun x _ => rfl) h.pos_le n
  refine ⟨⟨vec, st.pos + 1⟩, ?_, hroomy, fun c hc => ?_, ?_, ?_⟩
  · rw [Stack.push, h.pos_eq, if_pos hfits, ← h.pos_eq]
    exact congrArg (Option.map _) hvec
  · rcases hmem c hc with rfl | hc
    · exact Option.some_ne_none n
    · exact h.objects c hc
  · rw [List.length_append, List.length_singleton, h.pos_eq]
  · rw [htake, h.take_eq, List.map_append, List.map_singleton]

/-- `curr_stack_pos++` overflows -/
theorem StackRep.push_full (h : StackRep st todo) (n : ℕ) (hfull : fits (todo.length + 1) = false) :
    st.push fits n = none := by
  rw [Stack.push, h.pos_eq, if_neg (Bool.not_eq_true _ ▸ hfull)]

theorem StackRep.pop {n : ℕ} (h : StackRep st (todo ++ [n])) :
    ∃ st', st.pop = some (n, st') ∧ StackRep st' todo := by
  have hpos := h.pos_eq
  rw [List.length_append, List.length_singleton] at hpos
  have hle := h.pos_le
  have htop : st.vec.data[st.pos - 1]? = some (some n) := by
    have hget := congrArg (fun l => l[todo.length]?) h.take_eq
    simp only [List.map_append, List.map_singleton] at hget
    rw [List.getElem?_take_of_lt (by omega)] at hget
    rw [show st.pos - 1 = todo.length by omega, hget, ← List.length_map (f := some), List.getElem?_concat_length]
  refine ⟨⟨st.vec, st.pos - 1⟩, by rw [Stack.pop, Vector.at_spec htop, Option.map_some], h.roomy, h.objects, ?_, ?_⟩
  · rw [hpos]
    rfl
  · have htake := congrArg (List.take todo.length) h.take_eq
    rwa [List.take_take, List.map_append, List.take_append_of_le_length (by simp), ← List.length_map (f := some) ,
      List.take_length, List.length_map, show min todo.length st.pos = st.pos - 1 by omega] at htake

theorem startStack_spec {t : BkTree T} (h : 1 ≤ t.depth) (root : ℕ) (hfits : fits 1 = true) :
    ∃ st, t.startStack fits root = some st ∧ StackRep st [root] := by
  have hempty : StackRep ⟨Vector.ofCapacity (t.depth * 2), 0⟩ [] :=
    ⟨Vector.roomy_ofCapacity (by omega), fun c hc => absurd hc List.not_mem_nil, rfl, rfl⟩
  exact hempty.push root hfits

end Stack

/-! ## The invariant -/

section Inv

variable {view : T → W} {dist : W → W → Option ℤ} {S : Set W} {d : W → W → ℤ}

/-- the word of node `i` -/
def wordOf (view : T → W) (nodes : List (BkNode T)) (i : ℕ) : Option W := nodes[i]?.map fun node => view node.data

/-- `kids i` are the children of node `i`, in the order of their list -/
structure Inv (view : T → W) (S : Set W) (d : W → W → ℤ) (t : BkTree T) (kids : ℕ → List ℕ) : Prop where
  words : ∀ i w, wordOf view t.nodes i = some w → w ∈ S
  root_eq : t.root = if t.nodes = [] then none else some 0
  depth_pos : t.nodes ≠ [] → 1 ≤ t.depth
  holds : ∀ i (node : BkNode T), t.nodes[i]? = some node → node.children.Holds (kids i)
  ascending : ∀ i, SkipList.Ascending (slCompare t.nodes) (kids i)
  kids_lt : ∀ i c, c ∈ kids i → i < c ∧ c < t.nodes.length
  parent_unique : ∀ p p' c, c ∈ kids p → c ∈ kids p' → p = p'
  reach : ∀ i < t.nodes.length, Desc (fun p c => c ∈ kids p) 0 i
  /-- all nodes below a child are at the child's distance from the parent -/
  edges : ∀ p c i a b, c ∈ kids p → Desc (fun p c => c ∈ kids p) c i → wordOf view t.nodes p = some a →
    wordOf view t.nodes i = some b → d a b = distanceOf t.nodes c

theorem inv_empty (view : T → W) (S : Set W) (d : W → W → ℤ) : Inv view S d (empty : BkTree T) fun _ => [] where
  words := by simp [wordOf, empty]
  root_eq := rfl
  depth_pos := by simp [empty]
  holds := by simp [empty]
  ascending := fun _ => List.Pairwise.nil
  kids_lt := by simp
  parent_unique := by simp
  reach := by simp [empty]
  edges := by simp

variable {t : BkTree T} {kids : ℕ → List ℕ}

theorem Inv.forest (h : Inv view S d t kids) : Forest (fun p c => c ∈ kids p) id where
  parent_unique := h.parent_unique
  rank_lt := fun p c hc => (h.kids_lt p c hc).1

theorem lawful_slCompare (nodes : List (BkNode T)) : SkipList.LawfulCmp (slCompare nodes) where
  swap a b := by simp only [slCompare]; omega
  trans a b c := by simp only [slCompare]; omega

theorem node_of_word {nodes : List (BkNode T)} {i : ℕ} {w : W} (h : wordOf view nodes i = some w) :
    ∃ node, nodes[i]? = some node ∧ view node.data = w := by
  rw [wordOf] at h
  exact Option.map_eq_some_iff.1 h

theorem word_of_lt (view : T → W) {nodes : List (BkNode T)} {i : ℕ} (h : i < nodes.length) :
    ∃ node, nodes[i]? = some node ∧ wordOf view nodes i = some (view node.data) :=
  ⟨nodes[i], List.getElem?_eq_getElem h, by rw [wordOf, List.getElem?_eq_getElem h, Option.map_some]⟩

theorem lt_of_word {nodes : List (BkNode T)} {i : ℕ} {w : W} (h : wordOf view nodes i = some w) : i < nodes.length := by
  obtain ⟨node, hn, -⟩ := node_of_word h
  exact (List.getElem?_eq_some_iff.1 hn).1

/-! ## Search -/

/-- the child is in the window -/
def inWindow (nodes : List (BkNode T)) (lower upper : ℤ) (c : ℕ) : Bool :=
  lower ≤ distanceOf nodes c ∧ distanceOf nodes c ≤ upper

/-- the children after one past the window are farther still -/
theorem filter_past {nodes : List (BkNode T)} {lower upper : ℤ} {c : ℕ} {children : List ℕ}
    (hasc : SkipList.Ascending (slCompare nodes) (c :: children)) (hup : upper < distanceOf nodes c) :
    (c :: children).filter (inWindow nodes lower upper) = [] := by
  rw [List.filter_eq_nil_iff]
  intro e he
  have hge : distanceOf nodes c ≤ distanceOf nodes e := by
    cases he with
    | head => exact Int.le_refl _
    | tail _ he =>
      have := (List.pairwise_cons.1 hasc).1 e he
      simp only [slCompare] at this
      omega
  simp only [inWindow, decide_eq_true_eq, not_and]
  omega

theorem pushChildren_spec {fits : ℕ → Bool} {nodes : List (BkNode T)} (lower upper : ℤ) {children : List ℕ}
    (hasc : SkipList.Ascending (slCompare nodes) children) (hlt : ∀ c ∈ children, c < nodes.length) {st : Stack}
    {todo : List ℕ} (hst : StackRep st todo)
    (hroom : ∀ pos ≤ todo.length + (children.filter (inWindow nodes lower upper)).length, fits pos = true) :
    ∃ st', pushChildren fits nodes lower upper children st = some st' ∧
      StackRep st' (todo ++ children.filter (inWindow nodes lower upper)) := by
  induction children generalizing st todo with
  | nil => exact ⟨st, rfl, by simpa using hst⟩
  | cons c children ih =>
    obtain ⟨hc, hrest⟩ := List.pairwise_cons.1 hasc
    have hlt' : ∀ e ∈ children, e < nodes.length := fun e he => hlt e (List.mem_cons_of_mem _ he)
    obtain ⟨node, hget⟩ : ∃ node, nodes[c]? = some node :=
      ⟨_, List.getElem?_eq_getElem (hlt c List.mem_cons_self)⟩
    have hdist : node.distanceFromParent = distanceOf nodes c := by rw [distanceOf, hget, Option.elim_some]
    simp only [pushChildren, hget, Option.bind_some, hdist]
    by_cases hlow : distanceOf nodes c < lower
    · have hout : inWindow nodes lower upper c = false := by simp [inWindow]; omega
      rw [List.filter_cons_of_neg (by simp [hout])] at hroom ⊢
      rw [if_pos hlow]
      exact ih hrest hlt' hst hroom
    · rw [if_neg hlow]
      by_cases hup : distanceOf nodes c ≤ upper
      · have hin : inWindow nodes lower upper c = true := by simp [inWindow]; omega
        rw [List.filter_cons_of_pos hin, List.length_cons] at hroom
        obtain ⟨st₁, hpush, hst₁⟩ := hst.push c (hroom _ (by omega))
        obtain ⟨st₂, hst₂, hrep⟩ := ih hrest hlt' hst₁ fun pos hpos =>
          hroom pos (by rw [List.length_append, List.length_singleton] at hpos; omega)
        refine ⟨st₂, by rw [if_pos hup, hpush, Option.bind_some, hst₂], ?_⟩
        rw [List.filter_cons_of_pos hin]
        simpa using hrep
      · rw [filter_past hasc (Int.not_le.1 hup), List.append_nil]
        exact ⟨st, if_neg hup, hst⟩

theorem distances_nodup {nodes : List (BkNode T)} {children : List ℕ}
    (hasc : SkipList.Ascending (slCompare nodes) children) : (children.map (distanceOf nodes)).Nodup := by
  rw [List.Nodup, List.pairwise_map]
  refine hasc.imp fun {a b} hab heq => ?_
  simp only [slCompare, heq] at hab
  omega

theorem Inv.kids_nodup (h : Inv view S d t kids) (p : ℕ) : (kids p).Nodup := (distances_nodup (h.ascending p)).of_map _

/-- the children of a node that a search puts on its stack -/
def windowChildren (view : T → W) (d : W → W → ℤ) (t : BkTree T) (threshold : ℤ) (q : W) (p : ℕ) : List ℕ :=
  t.nodes[p]?.elim [] fun node => (node.children.toList.getD []).filter
    (inWindow t.nodes (d (view node.data) q - threshold) (d (view node.data) q + threshold))

theorem windowChildren_eq (h : Inv view S d t kids) {p : ℕ} {node : BkNode T} (hp : t.nodes[p]? = some node)
    (threshold : ℤ) (q : W) : windowChildren view d t threshold q p =
      (kids p).filter (inWindow t.nodes (d (view node.data) q - threshold) (d (view node.data) q + threshold)) := by
  rw [windowChildren, hp, Option.elim_some, SkipList.toList_spec (h.holds p node hp), Option.getD_some]

theorem windowChildren_kids (h : Inv view S d t kids) {threshold : ℤ} {q : W} {p c : ℕ}
    (hc : c ∈ windowChildren view d t threshold q p) : c ∈ kids p := by
  cases hp : t.nodes[p]? with
  | none =>
    rw [windowChildren, hp] at hc
    cases hc
  | some node =>
    rw [windowChildren_eq h hp] at hc
    exact (List.mem_filter.1 hc).1

theorem windowChildren_ascending (h : Inv view S d t kids) (threshold : ℤ) (q : W) (p : ℕ) :
    SkipList.Ascending (slCompare t.nodes) (windowChildren view d t threshold q p) := by
  cases hp : t.nodes[p]? with
  | none =>
    rw [windowChildren, hp]
    exact List.Pairwise.nil
  | some node =>
    rw [windowChildren_eq h hp]
    exact (h.ascending p).filter _

theorem windowChildren_nodup (h : Inv view S d t kids) (threshold : ℤ) (q : W) (p : ℕ) :
    (windowChildren view d t threshold q p).Nodup :=
  (distances_nodup (windowChildren_ascending h threshold q p)).of_map _

theorem ranked (h : Inv view S d t kids) (threshold : ℤ) (q : W) :
    Ranked (windowChildren view d t threshold q) id t.nodes.length :=
  fun p c hc => h.kids_lt p c (windowChildren_kids h hc)

/-- where the bounds of the window fit an `int` -/
theorem pushWindow_eq (h : Inv view S d t kids) {node : BkNode T} {p : ℕ} (hp : t.nodes[p]? = some node)
    {D threshold : ℤ} (hfit : intFits (D - threshold) ∧ intFits (D + threshold)) (fits : ℕ → Bool) (st : Stack) :
    t.pushWindow fits node D threshold st =
      pushChildren fits t.nodes (D - threshold) (D + threshold) (kids p) st := by
  rw [pushWindow, toInt, if_pos hfit.1, toInt, if_pos hfit.2, Option.bind_some, Option.bind_some,
    SkipList.toList_spec (h.holds p node hp), Option.bind_some]

/-- the largest stack of a search from this one on -/
def waiting (view : T → W) (d : W → W → ℤ) (t : BkTree T) (threshold : ℤ) (q : W) (todo : List ℕ) : ℕ :=
  stackNeed (windowChildren view d t threshold q) t.nodes.length todo

/-- the nodes whose word is within `threshold` of `q` -/
def Within (view : T → W) (d : W → W → ℤ) (t : BkTree T) (q : W) (threshold : ℤ) (i : ℕ) : Prop :=
  ∃ w, wordOf view t.nodes i = some w ∧ d w q ≤ threshold

/-- nothing below a child outside the window is within the threshold -/
theorem Inv.out_of_reach (hm : MetricOn S dist d) (h : Inv view S d t kids) {q : W} (hq : q ∈ S) {threshold : ℤ}
    {p c i : ℕ} {a b : W} (hc : c ∈ kids p) (hi : Desc (fun p c => c ∈ kids p) c i) (ha : wordOf view t.nodes p = some a)
    (hb : wordOf view t.nodes i = some b)
    (hout : distanceOf t.nodes c < d a q - threshold ∨ d a q + threshold < distanceOf t.nodes c) :
    threshold < d b q := by
  by_contra hle
  have hwin := hm.window (h.words p a ha) (h.words i b hb) hq (Int.not_lt.1 hle)
  rw [h.edges p c i a b hc hi ha hb] at hwin
  omega

/-- **One turn** of either search: the children outside the window are dropped for good -/
theorem pushWindow_spec (hm : MetricOn S dist d) (h : Inv view S d t kids) {q : W} (hq : q ∈ S) {threshold : ℤ}
    {node : BkNode T} {p : ℕ} (hp : t.nodes[p]? = some node)
    (hfit : intFits (d (view node.data) q - threshold) ∧ intFits (d (view node.data) q + threshold))
    {fits : ℕ → Bool} {st : Stack} {seen todo : List ℕ} (hst : StackRep st todo)
    (hroom : ∀ pos ≤ waiting view d t threshold q (todo ++ [p]), fits pos = true)
    (hw : Worklist (fun p c => c ∈ kids p) (Within view d t q threshold) seen (todo ++ [p])) :
    ∃ st', t.pushWindow fits node (d (view node.data) q) threshold st = some st' ∧
      StackRep st' (todo ++ windowChildren view d t threshold q p) ∧
      Worklist (fun p c => c ∈ kids p) (Within view d t q threshold) (seen ++ [p])
        (todo ++ windowChildren view d t threshold q p) ∧
      (∀ pos ≤ waiting view d t threshold q (todo ++ windowChildren view d t threshold q p), fits pos = true) ∧
      ∀ c ∈ windowChildren view d t threshold q p, c < t.nodes.length := by
  have hword : wordOf view t.nodes p = some (view node.data) := by rw [wordOf, hp, Option.map_some]
  have hturn : waiting view d t threshold q (todo ++ [p]) = _ := stackNeed_snoc (ranked h threshold q) todo p
  have hlen := length_le_stackNeed (windowChildren view d t threshold q) t.nodes.length
    (todo ++ windowChildren view d t threshold q p)
  have hroom' : ∀ pos ≤ waiting view d t threshold q (todo ++ windowChildren view d t threshold q p), fits pos = true :=
    fun pos hpos => hroom pos (by rw [hturn]; exact Nat.le_trans hpos (Nat.le_max_right _ _))
  rw [windowChildren_eq h hp, List.length_append] at hlen
  obtain ⟨st', hpush, hst'⟩ := pushChildren_spec (d (view node.data) q - threshold)
    (d (view node.data) q + threshold) (h.ascending p) (fun c hc => (h.kids_lt p c hc).2) hst
    fun pos hpos => hroom' pos (by rw [windowChildren_eq h hp]; exact Nat.le_trans hpos hlen)
  rw [← windowChildren_eq h hp] at hst'
  refine ⟨st', ?_, hst', hw.step h.forest (windowChildren_nodup h threshold q p)
    (fun c hc => windowChildren_kids h hc) ?_, hroom', fun c hc => (h.kids_lt p c (windowChildren_kids h hc)).2⟩
  · rw [pushWindow_eq h hp hfit, hpush]
  · intro c hc hout i hi hwant
    obtain ⟨w, hiw, hwq⟩ := hwant
    have hdrop : ¬ inWindow t.nodes (d (view node.data) q - threshold) (d (view node.data) q + threshold) c = true :=
      fun hin => hout (by rw [windowChildren_eq h hp]; exact List.mem_filter.2 ⟨hc, hin⟩)
    simp only [inWindow, decide_eq_true_eq] at hdrop
    exact Int.not_lt.2 hwq (h.out_of_reach hm hq hc hi hword hiw (by omega))

/-- the search has a turn left for every node it has not looked at -/
theorem fuel_pos {want : ℕ → Prop} {seen todo : List ℕ} {n fuel : ℕ}
    (hw : Worklist (fun p c => c ∈ kids p) want seen todo) (hseen : ∀ i ∈ seen, i < n) (hf : n < fuel + seen.length) :
    0 < fuel := by
  have hsub : seen ⊆ List.range n := fun i hi => List.mem_range.2 (hseen i hi)
  have := (hw.nodup.subperm hsub).length_le
  rw [List.length_range] at this
  omega

theorem lt_append {xs ys : List ℕ} {n : ℕ} (hx : ∀ i ∈ xs, i < n) (hy : ∀ i ∈ ys, i < n) : ∀ i ∈ xs ++ ys, i < n := by
  intro i hi
  rcases List.mem_append.1 hi with hi | hi
  · exact hx i hi
  · exact hy i hi

/-- the bounds of the window fit an `int` at every node -/
def Fits (view : T → W) (d : W → W → ℤ) (t : BkTree T) (q : W) (threshold : ℤ) : Prop :=
  ∀ i w, wordOf view t.nodes i = some w → intFits (d w q - threshold) ∧ intFits (d w q + threshold)

/-- a node that is looked at is matched -/
def matched (view : T → W) (d : W → W → ℤ) (t : BkTree T) (q : W) (threshold : ℤ) (i : ℕ) : Bool :=
  (wordOf view t.nodes i).any fun w => d w q ≤ threshold

theorem matchLoop_spec (hm : MetricOn S dist d) (h : Inv view S d t kids) {q : W} (hq : q ∈ S) {threshold : ℤ}
    (hfit : Fits view d t q threshold) {fits : ℕ → Bool} (fuel : ℕ) {st : Stack} {seen todo : List ℕ}
    (hst : StackRep st todo) (hroom : ∀ pos ≤ waiting view d t threshold q todo, fits pos = true)
    (hw : Worklist (fun p c => c ∈ kids p) (Within view d t q threshold) seen todo)
    (hseen : ∀ i ∈ seen, i < t.nodes.length) (htodo : ∀ i ∈ todo, i < t.nodes.length)
    (hf : t.nodes.length < fuel + seen.length) :
    ∃ all, matchLoop view dist fits t threshold q fuel st (seen.filter (matched view d t q threshold)) =
        some (all.filter (matched view d t q threshold)) ∧
      Worklist (fun p c => c ∈ kids p) (Within view d t q threshold) all [] := by
  induction fuel generalizing st seen todo with
  | zero => exact absurd (fuel_pos hw hseen hf) (Nat.lt_irrefl 0)
  | succ fuel ih =>
    rcases List.eq_nil_or_concat' todo with rfl | ⟨todo, p, rfl⟩
    · exact ⟨seen, if_pos hst.pos_eq, hw⟩
    · obtain ⟨st₁, hpop, hst₁⟩ := hst.pop
      obtain ⟨node, hp, hword⟩ := word_of_lt view (htodo p (by simp))
      obtain ⟨st₂, hpush, hst₂, hw₂, hroom₂, hcs⟩ := pushWindow_spec hm h hq hp (hfit p _ hword) hst₁ hroom hw
      have hpos : st.pos ≠ 0 := by rw [hst.pos_eq]; simp
      have hret : (if d (view node.data) q ≤ threshold then seen.filter (matched view d t q threshold) ++ [p]
          else seen.filter (matched view d t q threshold)) = (seen ++ [p]).filter (matched view d t q threshold) := by
        rw [List.filter_append]
        by_cases hle : d (view node.data) q ≤ threshold <;> simp [hle, matched, hword]
      have hlt : ∀ i ∈ [p], i < t.nodes.length := fun i hi => htodo i (List.mem_append_right _ hi)
      obtain ⟨all, hall, hdone⟩ := ih hst₂ hroom₂ hw₂ (lt_append hseen hlt)
        (lt_append (fun i hi => htodo i (List.mem_append_left _ hi)) hcs)
        (by simp only [List.length_append, List.length_singleton]; omega)
      refine ⟨all, ?_, hdone⟩
      rw [matchLoop, if_neg hpos, hpop, Option.bind_some]
      simp only [hp, hm.defined _ (h.words p _ hword) q hq, Option.bind_some, hret, hpush, hall]

/-- the largest stack of a whole search -/
def largestStack (view : T → W) (d : W → W → ℤ) (t : BkTree T) (threshold : ℤ) (q : W) : ℕ :=
  t.root.elim 0 fun root => waiting view d t threshold q [root]

/-- **Search with a threshold.** `match` is defined and returns the nodes within the threshold, each once, if
`curr_stack_pos` can take the values up to the largest stack. -/
theorem matchWithin_spec (hm : MetricOn S dist d) (h : Inv view S d t kids) {q : W} (hq : q ∈ S) {threshold : ℤ}
    (hfit : Fits view d t q threshold) {fits : ℕ → Bool}
    (hroom : ∀ pos ≤ largestStack view d t threshold q, fits pos = true) :
    ∃ r, t.matchWithin view dist fits threshold q = some r ∧ r.Nodup ∧ ∀ i, i ∈ r ↔ Within view d t q threshold i := by
  by_cases hnil : t.nodes = []
  · refine ⟨[], by rw [matchWithin, h.root_eq, if_pos hnil], List.nodup_nil, fun i => ⟨by simp, fun hi => ?_⟩⟩
    obtain ⟨w, hw, -⟩ := hi
    simp [wordOf, hnil] at hw
  · have hroot : t.root = some 0 := by rw [h.root_eq, if_neg hnil]
    rw [largestStack, hroot, Option.elim_some] at hroom
    obtain ⟨st, hst, hrep⟩ := startStack_spec (h.depth_pos hnil) 0 (hroom 1 (length_le_stackNeed _ _ [0]))
    have hinit : Worklist (fun p c => c ∈ kids p) (Within view d t q threshold) [] [0] :=
      Worklist.init fun i hi => h.reach i (lt_of_word hi.choose_spec.1)
    obtain ⟨all, hall, hdone⟩ := matchLoop_spec hm h hq hfit (t.nodes.length + 1) hrep hroom hinit (by simp)
      (by simpa using List.length_pos_of_ne_nil hnil) (by simp)
    refine ⟨_, by simpa [matchWithin, hroot, hst] using hall, hdone.nodup.filter _, fun i => ?_⟩
    have hiff : matched view d t q threshold i = true ↔ Within view d t q threshold i := by
      cases hw : wordOf view t.nodes i <;> simp [matched, Within, hw]
    rw [List.mem_filter, hiff]
    exact ⟨fun hi => hi.2, fun hi => ⟨hdone.done hi, hi⟩⟩

theorem match_spec (hm : MetricOn S dist d) (h : Inv view S d t kids) {q : W} (hq : q ∈ S) {threshold : ℤ}
    (hfit : Fits view d t q threshold) :
    ∃ r, t.match view dist threshold q = some r ∧ r.Nodup ∧ ∀ i, i ∈ r ↔ Within view d t q threshold i :=
  matchWithin_spec hm h hq hfit fun pos _ => anyPos_eq pos

/-- a search for a word that the distance throws on does not get past the root -/
theorem match_throws (h : Inv view S d t kids) (hne : t.nodes ≠ []) {q : W} (hthrow : ∀ a ∈ S, dist a q = none)
    (threshold : ℤ) : t.match view dist threshold q = none := by
  obtain ⟨st, hst, hrep⟩ := startStack_spec (h.depth_pos hne) 0 (anyPos_eq 1)
  have hroot : t.root = some 0 := by rw [h.root_eq, if_neg hne]
  have hpos : st.pos ≠ 0 := by rw [hrep.pos_eq]; simp
  obtain ⟨st', hpop, -⟩ := (show StackRep st ([] ++ [0]) from hrep).pop
  obtain ⟨node, hnode, hword⟩ := word_of_lt view (List.length_pos_of_ne_nil hne)
  simp only [BkTree.match, matchWithin, hroot, hst, Option.bind_some, matchLoop, if_neg hpos, hpop, hnode,
    hthrow _ (h.words 0 _ hword), Option.bind_none]

theorem findLoop_spec (hm : MetricOn S dist d) (h : Inv view S d t kids) {q : W} (hq : q ∈ S)
    (hfit : Fits view d t q 0) (fuel : ℕ) {st : Stack} {seen todo : List ℕ} (hst : StackRep st todo)
    (hw : Worklist (fun p c => c ∈ kids p) (Within view d t q 0) seen todo)
    (hseen : ∀ i ∈ seen, i < t.nodes.length) (htodo : ∀ i ∈ todo, i < t.nodes.length)
    (hno : ∀ i ∈ seen, ¬ Within view d t q 0 i) (hf : t.nodes.length < fuel + seen.length) :
    ∃ r, findLoop view dist t q fuel st = some r ∧ (∀ i, r = some i → wordOf view t.nodes i = some q) ∧
      (r = none → ∀ i, ¬ Within view d t q 0 i) := by
  induction fuel generalizing st seen todo with
  | zero => exact absurd (fuel_pos hw hseen hf) (Nat.lt_irrefl 0)
  | succ fuel ih =>
    rcases List.eq_nil_or_concat' todo with rfl | ⟨todo, p, rfl⟩
    · exact ⟨none, if_pos hst.pos_eq, by simp, fun _ i hi => hno i (hw.done hi) hi⟩
    · obtain ⟨st₁, hpop, hst₁⟩ := hst.pop
      obtain ⟨node, hp, hword⟩ := word_of_lt view (htodo p (by simp))
      have hin := h.words p _ hword
      have hpos : st.pos ≠ 0 := by rw [hst.pos_eq]; simp
      simp only [findLoop, if_neg hpos, hpop, Option.bind_some, hp, hm.defined _ hin q hq]
      by_cases hz : d (view node.data) q = 0
      · refine ⟨some p, if_pos hz, fun i hi => ?_, by simp⟩
        cases hi
        rw [hword, (hm.eq_zero _ hin q hq).1 hz]
      · obtain ⟨st₂, hpush, hst₂, hw₂, -, hcs⟩ := pushWindow_spec hm h hq hp (hfit p _ hword) hst₁
          (fun pos _ => anyPos_eq pos) hw
        have hlt : ∀ i ∈ [p], i < t.nodes.length := fun i hi => htodo i (List.mem_append_right _ hi)
        have hno₂ : ∀ i ∈ seen ++ [p], ¬ Within view d t q 0 i := by
          intro i hi
          rcases List.mem_append.1 hi with hi | hi
          · exact hno i hi
          · rw [List.mem_singleton.1 hi]
            intro hwant
            obtain ⟨w, hw', hle⟩ := hwant
            rw [hword] at hw'
            cases hw'
            have := hm.nonneg _ hin q hq
            omega
        obtain ⟨r, hr, hfound⟩ := ih hst₂ hw₂ (lt_append hseen hlt)
          (lt_append (fun i hi => htodo i (List.mem_append_left _ hi)) hcs) hno₂
          (by simp only [List.length_append, List.length_singleton]; omega)
        exact ⟨r, by rw [if_neg hz, hpush, Option.bind_some, hr], hfound⟩

/-- **Exact search.** `find` is defined and returns a node with the word, if there is one. -/
theorem find_spec (hm : MetricOn S dist d) (h : Inv view S d t kids) {q : W} (hq : q ∈ S) (hfit : Fits view d t q 0) :
    ∃ r, t.find view dist q = some r ∧ (∀ i, r = some i → wordOf view t.nodes i = some q) ∧
      (r = none → ∀ i, wordOf view t.nodes i ≠ some q) := by
  by_cases hnil : t.nodes = []
  · exact ⟨none, by rw [BkTree.find, h.root_eq, if_pos hnil], by simp, by simp [wordOf, hnil]⟩
  · obtain ⟨st, hst, hrep⟩ := startStack_spec (h.depth_pos hnil) 0 (anyPos_eq 1)
    have hinit : Worklist (fun p c => c ∈ kids p) (Within view d t q 0) [] [0] :=
      Worklist.init fun i hi => h.reach i (lt_of_word hi.choose_spec.1)
    obtain ⟨r, hr, hsome, hnone⟩ := findLoop_spec hm h hq hfit (t.nodes.length + 1) hrep hinit (by simp)
      (by simpa using List.length_pos_of_ne_nil hnil) (by simp) (by simp)
    have hroot : t.root = some 0 := by rw [h.root_eq, if_neg hnil]
    refine ⟨r, by simpa [BkTree.find, hroot, hst] using hr, hsome, fun hr i hi => hnone hr i ⟨q, hi, ?_⟩⟩
    exact Int.le_of_eq ((hm.eq_zero q hq q hq).2 rfl)

/-! ## Insertion -/

/-- the heap with the new node, at distance `δ` from the node `insert` has reached -/
def withNew (nodes : List (BkNode T)) (data : T) (δ : ℤ) : List (BkNode T) := nodes ++ [⟨data, δ, SkipList.empty⟩]

section Heap

variable {nodes : List (BkNode T)} {data : T} {δ : ℤ} {i : ℕ}

theorem withNew_old (h : i < nodes.length) : (withNew nodes data δ)[i]? = nodes[i]? := List.getElem?_append_left h

theorem withNew_new : (withNew nodes data δ)[nodes.length]? = some ⟨data, δ, SkipList.empty⟩ := by
  rw [withNew, List.getElem?_concat_length]

theorem setDistance_withNew (x : ℤ) : setDistance (withNew nodes data δ) nodes.length x = withNew nodes data x := by
  apply List.ext_getElem?
  intro j
  rw [setDistance]
  rcases Nat.lt_trichotomy j nodes.length with hj | hj | hj
  · rw [List.getElem?_modify_ne _ _ (Nat.ne_of_gt hj), withNew_old hj, withNew_old hj]
  · rw [hj, List.getElem?_modify_eq, withNew_new, withNew_new]
    rfl
  · have hlen : ∀ x, (withNew nodes data x).length ≤ j := by
      intro x
      rw [withNew, List.length_append, List.length_singleton]
      exact hj
    rw [List.getElem?_modify_ne _ _ (Nat.ne_of_lt hj), List.getElem?_eq_none (hlen δ), List.getElem?_eq_none (hlen x)]

theorem distanceOf_old (h : i < nodes.length) : distanceOf (withNew nodes data δ) i = distanceOf nodes i := by
  rw [distanceOf, withNew_old h, distanceOf]

theorem distanceOf_new : distanceOf (withNew nodes data δ) nodes.length = δ := by
  rw [distanceOf, withNew_new, Option.elim_some]

theorem setChildren_get (children : SkipList ℕ bkTreeSkipListLevels) (p : ℕ) :
    (setChildren nodes p children)[i]? =
      nodes[i]?.map fun node => if p = i then { node with children := children } else node := by
  rw [setChildren, List.getElem?_modify]
  by_cases h : p = i <;> simp [h]

@[simp] theorem setChildren_length (children : SkipList ℕ bkTreeSkipListLevels) (p : ℕ) :
    (setChildren nodes p children).length = nodes.length := List.length_modify ..

theorem setChildren_word (children : SkipList ℕ bkTreeSkipListLevels) (p : ℕ) :
    wordOf view (setChildren nodes p children) i = wordOf view nodes i := by
  rw [wordOf, setChildren_get, wordOf, Option.map_map]
  congr 1
  funext node
  by_cases h : p = i <;> simp [h]

theorem setChildren_distance (children : SkipList ℕ bkTreeSkipListLevels) (p : ℕ) :
    distanceOf (setChildren nodes p children) i = distanceOf nodes i := by
  rw [distanceOf, setChildren_get, distanceOf]
  cases nodes[i]? with
  | none => rfl
  | some node => by_cases h : p = i <;> simp [h]

theorem setChildren_data (children : SkipList ℕ bkTreeSkipListLevels) (p : ℕ) :
    (setChildren nodes p children).map BkNode.data = nodes.map BkNode.data := by
  apply List.ext_getElem?
  intro j
  rw [List.getElem?_map, setChildren_get, Option.map_map, List.getElem?_map]
  congr 1
  funext node
  by_cases h : p = j <;> simp [h]

end Heap

/-- the descent of a word comes to `p`: `p` is where all the edges to it lead the word -/
def Leads (view : T → W) (d : W → W → ℤ) (t : BkTree T) (kids : ℕ → List ℕ) (w : W) (p : ℕ) : Prop :=
  ∀ a c aw, c ∈ kids a → Desc (fun p c => c ∈ kids p) c p → wordOf view t.nodes a = some aw →
    d aw w = distanceOf t.nodes c

/-- the descent ends at `p`, which has no child at the word's distance `δ`, and the new node becomes a child of `p` -/
structure Placed (view : T → W) (d : W → W → ℤ) (t : BkTree T) (kids : ℕ → List ℕ) (data : T) (p : ℕ) (δ : ℤ)
    (children : SkipList ℕ bkTreeSkipListLevels) : Prop where
  at_dist : ∃ a, wordOf view t.nodes p = some a ∧ d a (view data) = δ
  leads : Leads view d t kids (view data) p
  no_child : ∀ c ∈ kids p, distanceOf t.nodes c ≠ δ
  holds : children.Holds (SkipList.insertKey (slCompare (withNew t.nodes data δ)) t.nodes.length (kids p))

/-- the comparison does not see the new node -/
theorem ascending_withNew (h : Inv view S d t kids) (data : T) (δ : ℤ) (p : ℕ) :
    SkipList.Ascending (slCompare (withNew t.nodes data δ)) (kids p) := by
  refine (h.ascending p).imp_of_mem fun {a b} ha hb hab => ?_
  rw [slCompare, distanceOf_old (h.kids_lt p a ha).2, distanceOf_old (h.kids_lt p b hb).2]
  exact hab

theorem attach_spec (h : Inv view S d t kids) {data : T} (δ : ℤ) {p : ℕ} {curr : BkNode T}
    (hp : t.nodes[p]? = some curr) {height : ℕ} (hh : height < bkTreeSkipListLevels) :
    ∃ children, attach (withNew t.nodes data δ) curr p t.nodes.length height =
        some (setChildren (withNew t.nodes data δ) p children) ∧
      children.Holds (SkipList.insertKey (slCompare (withNew t.nodes data δ)) t.nodes.length (kids p)) := by
  obtain ⟨children, hins, hholds⟩ := SkipList.insert_spec (lawful_slCompare _) (h.holds p curr hp)
    (ascending_withNew h data δ p) t.nodes.length hh
  exact ⟨children, by rw [attach, hins, Option.map_some], hholds⟩

theorem insertLoop_spec (hm : MetricOn S dist d) (h : Inv view S d t kids) {data : T} (hd : view data ∈ S) {height : ℕ}
    (hh : height < bkTreeSkipListLevels) {fuel p : ℕ} (hp : p < t.nodes.length) (hf : t.nodes.length < fuel + p)
    (hl : Leads view d t kids (view data) p) (δ : ℤ) (localDepth : ℕ) :
    ∃ p' δ' children ld, insertLoop view dist t.nodes.length height fuel (withNew t.nodes data δ) p localDepth =
        some (setChildren (withNew t.nodes data δ') p' children, ld) ∧ localDepth < ld ∧
      Placed view d t kids data p' δ' children := by
  induction fuel generalizing p δ localDepth with
  | zero => omega
  | succ fuel ih =>
    obtain ⟨curr, hcurr, hword⟩ := word_of_lt view hp
    have hat : ∃ a, wordOf view t.nodes p = some a ∧ d a (view data) = d (view curr.data) (view data) :=
      ⟨_, hword, rfl⟩
    simp only [insertLoop, withNew_old hp, hcurr, withNew_new, Option.bind_some,
      hm.defined _ (h.words p _ hword) _ hd, setDistance_withNew]
    obtain ⟨children, hatt, hholds⟩ := attach_spec h (d (view curr.data) (view data)) hcurr hh
    by_cases hsize : 0 < curr.children.size
    · obtain ⟨r, hr, hsome, hnone⟩ := SkipList.find_spec (lawful_slCompare (withNew t.nodes data _))
        (h.holds p curr hcurr) (ascending_withNew h data (d (view curr.data) (view data)) p) t.nodes.length
      rw [if_pos hsize, hr, Option.bind_some]
      cases r with
      | none =>
        refine ⟨p, _, children, localDepth + 1, by simp only [hatt, Option.map_some], Nat.lt_succ_self _, hat, hl, ?_,
          hholds⟩
        intro c hc hdist
        refine hnone rfl c hc ?_
        rw [slCompare, distanceOf_old (h.kids_lt p c hc).2, distanceOf_new, hdist]
        omega
      | some n =>
        obtain ⟨c, hc, hval, heq⟩ := hsome n rfl
        obtain ⟨hpc, hclt⟩ := h.kids_lt p c hc
        rw [slCompare, distanceOf_old hclt, distanceOf_new] at heq
        have hlc : Leads view d t kids (view data) c := by
          intro a e aw he hdesc haw
          by_cases hec : e = c
          · -- the last edge of the descent
            subst hec
            rw [h.parent_unique a p e he hc, hword] at haw
            cases haw
            omega
          · exact hl a e aw he (h.forest.desc_parent hdesc hec hc) haw
        obtain ⟨p', δ', children', ld, hloop, hld, hplaced⟩ := ih hclt (by omega) hlc
          (d (view curr.data) (view data)) (localDepth + 1)
        exact ⟨p', δ', children', ld, by simp only [hval, Option.bind_some, hloop], by omega, hplaced⟩
    · have hnil : kids p = [] := by
        obtain ⟨lv, -, -, hlen⟩ := h.holds p curr hcurr
        exact List.length_eq_zero_iff.1 (by omega)
      exact ⟨p, _, children, localDepth + 1, by rw [if_neg hsize, hatt, Option.map_some], Nat.lt_succ_self _, hat, hl,
        by simp [hnil], hholds⟩

section Placed

variable {data : T} {p : ℕ} {δ : ℤ} {children : SkipList ℕ bkTreeSkipListLevels}

/-- the children once the new node is placed -/
def kidsWith (t : BkTree T) (kids : ℕ → List ℕ) (data : T) (p : ℕ) (δ : ℤ) : ℕ → List ℕ :=
  Function.update kids p (SkipList.insertKey (slCompare (withNew t.nodes data δ)) t.nodes.length (kids p))

theorem Inv.kids_new (h : Inv view S d t kids) : kids t.nodes.length = [] := by
  refine List.eq_nil_iff_forall_not_mem.2 fun c hc => ?_
  have := h.kids_lt _ c hc
  omega

theorem mem_kidsWith (h : Inv view S d t kids) (hpl : Placed view d t kids data p δ children) (a c : ℕ) :
    c ∈ kidsWith t kids data p δ a ↔ c ∈ kids a ∨ (a = p ∧ c = t.nodes.length) := by
  have hno : ∀ y ∈ kids p, slCompare (withNew t.nodes data δ) y t.nodes.length ≠ 0 := by
    intro y hy hz
    rw [slCompare, distanceOf_old (h.kids_lt p y hy).2, distanceOf_new] at hz
    exact hpl.no_child y hy (by omega)
  by_cases ha : a = p
  · subst ha
    rw [kidsWith, Function.update_self]
    refine ⟨fun hc => ?_, fun hc => ?_⟩
    · rcases SkipList.mem_insertKey hc with hc | hc
      · exact .inr ⟨rfl, hc⟩
      · exact .inl hc
    · rcases hc with hc | ⟨-, rfl⟩
      · exact SkipList.mem_insertKey_old hc
      · exact SkipList.mem_insertKey_new hno
  · rw [kidsWith, Function.update_of_ne ha]
    simp [ha]

/-- what is below a node once the new one is placed -/
theorem desc_kidsWith (h : Inv view S d t kids) (hpl : Placed view d t kids data p δ children) {a i : ℕ}
    (hd : Desc (fun a c => c ∈ kidsWith t kids data p δ a) a i) :
    (i ≠ t.nodes.length ∧ Desc (fun a c => c ∈ kids a) a i) ∨
      (i = t.nodes.length ∧ (a = t.nodes.length ∨ Desc (fun a c => c ∈ kids a) a p)) := by
  have hp : p < t.nodes.length := lt_of_word hpl.at_dist.choose_spec.1
  induction hd with
  | refl =>
    by_cases ha : a = t.nodes.length
    · exact .inr ⟨ha, .inl ha⟩
    · exact .inl ⟨ha, .refl⟩
  | tail _ hc ih =>
    rcases (mem_kidsWith h hpl _ _).1 hc with hc | ⟨rfl, rfl⟩
    · have hlt := h.kids_lt _ _ hc
      rcases ih with ⟨-, hd⟩ | ⟨rfl, -⟩
      · exact .inl ⟨by omega, hd.tail hc⟩
      · omega
    · rcases ih with ⟨-, hd⟩ | ⟨hpe, -⟩
      · exact .inr ⟨rfl, .inr hd⟩
      · omega

theorem word_old (view : T → W) {i : ℕ} (hi : i < t.nodes.length) :
    wordOf view (setChildren (withNew t.nodes data δ) p children) i = wordOf view t.nodes i := by
  rw [setChildren_word, wordOf, withNew_old hi, wordOf]

theorem word_new (view : T → W) (t : BkTree T) :
    wordOf view (setChildren (withNew t.nodes data δ) p children) t.nodes.length = some (view data) := by
  rw [setChildren_word, wordOf, withNew_new, Option.map_some]

/-- a node with a word, other than the new one, was there before -/
theorem lt_of_word_old {i : ℕ} {w : W} (hw : wordOf view (setChildren (withNew t.nodes data δ) p children) i = some w)
    (hne : i ≠ t.nodes.length) : i < t.nodes.length := by
  have hlt := lt_of_word hw
  rw [setChildren_length, withNew, List.length_append, List.length_singleton] at hlt
  omega

/-- the lists of children hold what they should -/
theorem Placed.children_hold (h : Inv view S d t kids) (hpl : Placed view d t kids data p δ children) {i : ℕ}
    {node : BkNode T} (hi : (setChildren (withNew t.nodes data δ) p children)[i]? = some node) :
    node.children.Holds (kidsWith t kids data p δ i) := by
  rw [setChildren_get] at hi
  obtain ⟨old, hold, rfl⟩ := Option.map_eq_some_iff.1 hi
  by_cases hip : p = i
  · subst hip
    rw [if_pos rfl, kidsWith, Function.update_self]
    exact hpl.holds
  · rw [if_neg hip, kidsWith, Function.update_of_ne (Ne.symm hip)]
    by_cases him : i = t.nodes.length
    · rw [him, withNew_new] at hold
      cases hold
      rw [him, h.kids_new]
      exact SkipList.holds_empty
    · have hlt : i < t.nodes.length := by
        have := (List.getElem?_eq_some_iff.1 hold).1
        rw [withNew, List.length_append, List.length_singleton] at this
        omega
      rw [withNew_old hlt] at hold
      exact h.holds i old hold

/-- an old edge has its distance to the new node, too; below the new edge is the new node only -/
theorem Placed.edges (h : Inv view S d t kids) (hpl : Placed view d t kids data p δ children) {a c i : ℕ} {aw b : W}
    (hc : c ∈ kidsWith t kids data p δ a) (hci : Desc (fun a c => c ∈ kidsWith t kids data p δ a) c i)
    (haw : wordOf view (setChildren (withNew t.nodes data δ) p children) a = some aw)
    (hb : wordOf view (setChildren (withNew t.nodes data δ) p children) i = some b) :
    d aw b = distanceOf (withNew t.nodes data δ) c := by
  obtain ⟨ap, hap, hδ⟩ := hpl.at_dist
  rcases (mem_kidsWith h hpl a c).1 hc with hc | ⟨rfl, rfl⟩
  · have hac := h.kids_lt a c hc
    rw [word_old view (by omega)] at haw
    rw [distanceOf_old hac.2]
    rcases desc_kidsWith h hpl hci with ⟨hne, hd⟩ | ⟨hi, hd⟩
    · rw [word_old view (lt_of_word_old hb hne)] at hb
      exact h.edges a c i aw b hc hd haw hb
    · rw [hi, word_new] at hb
      cases hb
      rcases hd with hd | hd
      · omega
      · exact hpl.leads a c aw hc hd haw
  · rw [word_old view (lt_of_word hap), hap] at haw
    cases haw
    rw [distanceOf_new]
    rcases desc_kidsWith h hpl hci with ⟨hne, hci⟩ | ⟨rfl, -⟩
    · rcases hci.cases_head with rfl | ⟨e, he, -⟩
      · exact absurd rfl hne
      · rw [h.kids_new] at he
        cases he
    · rw [word_new] at hb
      cases hb
      exact hδ

theorem Placed.inv (h : Inv view S d t kids) (hd : view data ∈ S) (hpl : Placed view d t kids data p δ children)
    {depth : ℕ} (hdepth : 1 ≤ depth) :
    Inv view S d ⟨setChildren (withNew t.nodes data δ) p children, some 0, depth⟩ (kidsWith t kids data p δ) := by
  have hp : p < t.nodes.length := lt_of_word hpl.at_dist.choose_spec.1
  have hlen : (setChildren (withNew t.nodes data δ) p children).length = t.nodes.length + 1 := by
    rw [setChildren_length, withNew, List.length_append, List.length_singleton]
  have hcmp : slCompare (setChildren (withNew t.nodes data δ) p children) = slCompare (withNew t.nodes data δ) := by
    funext a b
    rw [slCompare, setChildren_distance, setChildren_distance, slCompare]
  have hdesc : ∀ a i, Desc (fun a c => c ∈ kids a) a i → Desc (fun a c => c ∈ kidsWith t kids data p δ a) a i :=
    fun a i => Relation.ReflTransGen.mono (fun a c hc => (mem_kidsWith h hpl a c).2 (.inl hc)) a i
  constructor
  case words =>
    intro i w hw
    by_cases hi : i = t.nodes.length
    · rw [hi, word_new] at hw
      cases hw
      exact hd
    · rw [word_old view (lt_of_word_old hw hi)] at hw
      exact h.words i w hw
  case root_eq =>
    have hne : setChildren (withNew t.nodes data δ) p children ≠ [] := by
      intro hnil
      rw [hnil] at hlen
      cases hlen
    exact (if_neg hne).symm
  case depth_pos => exact fun _ => hdepth
  case holds => exact fun i node hi => hpl.children_hold h hi
  case ascending =>
    intro i
    simp only [hcmp]
    by_cases hip : i = p
    · rw [hip, kidsWith, Function.update_self]
      exact SkipList.insertKey_ascending (lawful_slCompare _) (ascending_withNew h data δ p) _
    · rw [kidsWith, Function.update_of_ne hip]
      exact ascending_withNew h data δ i
  case kids_lt =>
    intro i c hc
    simp only [hlen]
    rcases (mem_kidsWith h hpl i c).1 hc with hc | ⟨rfl, rfl⟩
    · have := h.kids_lt i c hc
      omega
    · omega
  case parent_unique =>
    intro a b c ha hb
    rcases (mem_kidsWith h hpl a c).1 ha with hac | hac
    · rcases (mem_kidsWith h hpl b c).1 hb with hbc | hbc
      · exact h.parent_unique a b c hac hbc
      · have := h.kids_lt a c hac
        omega
    · rcases (mem_kidsWith h hpl b c).1 hb with hbc | hbc
      · have := h.kids_lt b c hbc
        omega
      · exact hac.1.trans hbc.1.symm
  case reach =>
    intro i hi
    simp only [hlen] at hi
    by_cases him : i = t.nodes.length
    · rw [him]
      exact (hdesc 0 p (h.reach p hp)).tail ((mem_kidsWith h hpl p _).2 (.inr ⟨rfl, rfl⟩))
    · exact hdesc 0 i (h.reach i (by omega))
  case edges =>
    intro a c i aw b hc hci haw hb
    simp only [setChildren_distance]
    exact hpl.edges h hc hci haw hb

end Placed

/-- **Insertion.** For every height, an `insert` of a word of the set is defined and keeps the invariant; the new node
is the next one of the heap, and the data of the others stay. -/
theorem insert_spec (hm : MetricOn S dist d) (h : Inv view S d t kids) {data : T} (hd : view data ∈ S) {height : ℕ}
    (hh : height < bkTreeSkipListLevels) :
    ∃ t' kids', insert view dist t data height = some t' ∧ Inv view S d t' kids' ∧
      t'.nodes.map BkNode.data = t.nodes.map BkNode.data ++ [data] := by
  have hdata : ∀ p δ (children : SkipList ℕ bkTreeSkipListLevels),
      (setChildren (withNew t.nodes data δ) p children).map BkNode.data = t.nodes.map BkNode.data ++ [data] := by
    intro p δ children
    rw [setChildren_data, withNew, List.map_append, List.map_singleton]
  by_cases hnil : t.nodes = []
  · have hroot : t.root = none := by rw [h.root_eq, if_pos hnil]
    refine ⟨⟨[newNode data], some 0, t.depth + 1⟩, fun _ => [], by simp [insert, hroot, hnil], ?_, by simp [hnil, newNode]⟩
    have hzero : ∀ i node, [newNode data][i]? = some node → i = 0 ∧ node = newNode data := by
      intro i node hi
      cases i with
      | zero => exact ⟨rfl, by simpa using hi.symm⟩
      | succ i => simp at hi
    constructor
    case words =>
      intro i w hw
      obtain ⟨node, hi, rfl⟩ := node_of_word hw
      rw [(hzero i node hi).2]
      exact hd
    case root_eq => rfl
    case depth_pos => exact fun _ => Nat.succ_pos _
    case holds =>
      intro i node hi
      rw [(hzero i node hi).2]
      exact SkipList.holds_empty
    case ascending => exact fun _ => List.Pairwise.nil
    case kids_lt => simp
    case parent_unique => simp
    case reach =>
      intro i hi
      rw [List.length_singleton, Nat.lt_one_iff] at hi
      rw [hi]
    case edges => simp
  · have hroot : t.root = some 0 := by rw [h.root_eq, if_neg hnil]
    have hlead : Leads view d t kids (view data) 0 := by
      intro a c aw hc hdesc _
      have := h.forest.rank_le hdesc
      have := h.kids_lt a c hc
      simp only [id_eq] at *
      omega
    obtain ⟨p, δ, children, ld, hloop, -, hpl⟩ := insertLoop_spec hm h hd hh (List.length_pos_of_ne_nil hnil)
      (by omega : t.nodes.length < (t.nodes.length + 1) + 0) hlead 0 1
    refine ⟨_, _, ?_, hpl.inv h hd (?_ : 1 ≤ if t.depth < ld then ld else t.depth), hdata p δ children⟩
    · have hnew : t.nodes ++ [newNode data] = withNew t.nodes data 0 := rfl
      have hlen : (withNew t.nodes data 0).length = t.nodes.length + 1 := by simp [withNew]
      simp only [insert, hroot, hnew, hlen, hloop, Option.map_some]
    · have := h.depth_pos hnil
      split <;> omega

/-! ## Writing to a datum -/

/-- write to the datum of node `n`, through the pointer that `find` returned -/
def update (t : BkTree T) (n : ℕ) (f : T → T) : BkTree T :=
  { t with nodes := t.nodes.modify n fun node => { node with data := f node.data } }

theorem update_get (t : BkTree T) (n : ℕ) (f : T → T) (i : ℕ) :
    (t.update n f).nodes[i]? = t.nodes[i]?.map fun node => if n = i then { node with data := f node.data } else node := by
  rw [update, List.getElem?_modify]
  by_cases h : n = i <;> simp [h]

theorem update_data (t : BkTree T) (n : ℕ) (f : T → T) :
    (t.update n f).nodes.map BkNode.data = (t.nodes.map BkNode.data).modify n f := by
  ext i x
  rw [List.getElem?_map, update_get, List.getElem?_modify, List.getElem?_map]
  by_cases h : n = i <;> simp [h]

theorem mem_update_data (t : BkTree T) (n : ℕ) (f : T → T) (x : T) : x ∈ (t.update n f).nodes.map BkNode.data ↔
    ∃ (i : ℕ) (y : T), (t.nodes.map BkNode.data)[i]? = some y ∧ x = if n = i then f y else y := by
  simp only [List.mem_iff_getElem?, List.getElem?_map, update_get, Option.map_map, Option.map_eq_some_iff]
  constructor
  · intro hx
    obtain ⟨i, node, hi, rfl⟩ := hx
    refine ⟨i, node.data, ⟨node, hi, rfl⟩, ?_⟩
    by_cases h : n = i <;> simp [h]
  · intro hx
    obtain ⟨i, y, ⟨node, hi, rfl⟩, rfl⟩ := hx
    refine ⟨i, node, hi, ?_⟩
    by_cases h : n = i <;> simp [h]

/-- a write that keeps the word keeps the invariant -/
theorem update_inv (h : Inv view S d t kids) (n : ℕ) {f : T → T} (hf : ∀ x, view (f x) = view x) :
    Inv view S d (t.update n f) kids := by
  have hword : ∀ i, wordOf view (t.update n f).nodes i = wordOf view t.nodes i := by
    intro i
    rw [wordOf, update_get, wordOf, Option.map_map]
    congr 1
    funext node
    by_cases hn : n = i <;> simp [hn, hf]
  have hdist : ∀ i, distanceOf (t.update n f).nodes i = distanceOf t.nodes i := by
    intro i
    rw [distanceOf, update_get, distanceOf]
    cases t.nodes[i]? with
    | none => rfl
    | some node => by_cases hn : n = i <;> simp [hn]
  have hlen : (t.update n f).nodes.length = t.nodes.length := List.length_modify ..
  have hnil : (t.update n f).nodes = [] ↔ t.nodes = [] := by
    rw [← List.length_eq_zero_iff, hlen, List.length_eq_zero_iff]
  have hcmp : slCompare (t.update n f).nodes = slCompare t.nodes := by
    funext a b
    rw [slCompare, hdist, hdist, slCompare]
  constructor
  case words => exact fun i w hw => h.words i w (by rwa [hword] at hw)
  case root_eq => rw [show (t.update n f).root = t.root from rfl, h.root_eq]; simp only [hnil]
  case depth_pos => exact fun hne => h.depth_pos fun heq => hne (hnil.2 heq)
  case holds =>
    intro i node hi
    rw [update_get] at hi
    obtain ⟨old, hold, rfl⟩ := Option.map_eq_some_iff.1 hi
    have := h.holds i old hold
    by_cases hn : n = i <;> simpa [hn] using this
  case ascending => exact fun i => by rw [hcmp]; exact h.ascending i
  case kids_lt => exact fun i c hc => by rw [hlen]; exact h.kids_lt i c hc
  case parent_unique => exact h.parent_unique
  case reach => exact fun i hi => h.reach i (by rwa [hlen] at hi)
  case edges =>
    intro p c i a b hc hci ha hb
    rw [hword] at ha hb
    rw [hdist]
    exact h.edges p c i a b hc hci ha hb

/-! ## Runs -/

/-- one `insert` call: the data and the height drawn -/
def step (view : T → W) (dist : W → W → Option ℤ) (t : BkTree T) (x : T × ℕ) : Option (BkTree T) :=
  insert view dist t x.1 x.2

theorem run_spec (hm : MetricOn S dist d) {xs : List (T × ℕ)} (hwords : ∀ x ∈ xs, view x.1 ∈ S)
    (hheights : ∀ x ∈ xs, x.2 < bkTreeSkipListLevels) :
    ∃ t kids, run (step view dist) empty xs = some t ∧ Inv view S d t kids ∧
      t.nodes.map BkNode.data = xs.map Prod.fst := by
  induction xs using List.reverseRecOn with
  | nil => exact ⟨empty, _, rfl, inv_empty view S d, rfl⟩
  | append_singleton xs x ih =>
    obtain ⟨t, kids, ht, hinv, hdata⟩ := ih (fun y hy => hwords y (List.mem_append_left _ hy))
      fun y hy => hheights y (List.mem_append_left _ hy)
    have hx : x ∈ xs ++ [x] := List.mem_append_right _ (List.mem_singleton_self x)
    obtain ⟨t', kids', hins, hinv', hdata'⟩ := insert_spec hm hinv (hwords x hx) (hheights x hx)
    exact ⟨t', kids', by rw [run_snoc, ht, Option.bind_some, step, hins], hinv', by rw [hdata', hdata]; simp⟩

theorem wordOf_eq (view : T → W) {t : BkTree T} {xs : List (T × ℕ)} (h : t.nodes.map BkNode.data = xs.map Prod.fst) (i : ℕ) :
    wordOf view t.nodes i = xs[i]?.map fun x => view x.1 := by
  have hi := congrArg (fun l => l[i]?.map view) h
  simpa [wordOf, Function.comp_def] using hi

/-- the elements at the positions where `p` holds are the elements for which it holds -/
theorem filterMap_positions {α : Type} (p : α → Bool) (l : List α) :
    ((List.range l.length).filter fun i => l[i]?.any p).filterMap (fun i => l[i]?) = l.filter p := by
  induction l using List.reverseRecOn with
  | nil => rfl
  | append_singleton l a ih =>
    have hold : ∀ i ∈ List.range l.length, (l ++ [a])[i]? = l[i]? :=
      fun i hi => List.getElem?_append_left (List.mem_range.1 hi)
    have hfilter : (List.range l.length).filter (fun i => (l ++ [a])[i]?.any p) =
        (List.range l.length).filter fun i => l[i]?.any p :=
      List.filter_congr fun i hi => by rw [hold i hi]
    have hmap : ((List.range l.length).filter fun i => l[i]?.any p).filterMap (fun i => (l ++ [a])[i]?) =
        ((List.range l.length).filter fun i => l[i]?.any p).filterMap fun i => l[i]? :=
      List.filterMap_congr fun i hi => hold i (List.mem_filter.1 hi).1
    have hlast : (l ++ [a])[l.length]? = some a := List.getElem?_concat_length
    rw [List.length_append, List.length_singleton, List.range_succ, List.filter_append, List.filterMap_append, hfilter,
      hmap, ih, List.filter_append]
    by_cases hp : p a = true <;> simp [hp]

/-- the data of the nodes within the threshold -/
theorem data_perm (q : W) (threshold : ℤ) {r : List ℕ} (hnd : r.Nodup)
    (hmem : ∀ i, i ∈ r ↔ Within view d t q threshold i) :
    (r.filterMap fun i => t.nodes[i]?.map BkNode.data).Perm
      ((t.nodes.map BkNode.data).filter fun x => d (view x) q ≤ threshold) := by
  have hperm : r.Perm ((List.range (t.nodes.map BkNode.data).length).filter fun i =>
      (t.nodes.map BkNode.data)[i]?.any fun x => d (view x) q ≤ threshold) := by
    refine (List.perm_ext_iff_of_nodup hnd (List.nodup_range.filter _)).2 fun i => ?_
    rw [hmem, Within, wordOf, List.mem_filter, List.mem_range, List.getElem?_map, List.length_map]
    cases hi : t.nodes[i]? with
    | none => simp
    | some node => simpa using fun _ => (List.getElem?_eq_some_iff.1 hi).1
  simp only [← List.getElem?_map]
  rw [← filterMap_positions]
  exact hperm.filterMap _

/-- the data of the nodes that `match` returns -/
theorem match_perm (hm : MetricOn S dist d) (h : Inv view S d t kids) {q : W} (hq : q ∈ S) {threshold : ℤ}
    (hfit : Fits view d t q threshold) :
    ∃ r, t.match view dist threshold q = some r ∧ r.Nodup ∧ (∀ i, i ∈ r ↔ Within view d t q threshold i) ∧
      (r.filterMap fun i => t.nodes[i]?.map BkNode.data).Perm
        ((t.nodes.map BkNode.data).filter fun x => d (view x) q ≤ threshold) := by
  obtain ⟨r, hr, hnd, hmem⟩ := match_spec hm h hq hfit
  exact ⟨r, hr, hnd, hmem, data_perm q threshold hnd hmem⟩

end Inv

end BkTree

end K23Search
