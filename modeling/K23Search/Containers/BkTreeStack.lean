/-
The stack position of `bk_tree::match` (include/qs/bk_tree.hpp). `curr_stack_pos` is an `int`, while the vector that it
indexes grows as far as memory goes: the search overflows it when 2^31 nodes wait.

Results:
- `matchInt_iff`: `match` is defined exactly when the largest stack of the search is below 2^31;
- `largestStack_le`: it is no larger than the tree;
- `match_exact_iff`: the search is exact after any inserts, up to that condition;
- `crowd_overflows`: a tree of 2^31 + 2 nodes in which a search overflows.
-/
import K23Search.Containers.BkTree
import Mathlib.Tactic.NormNum

namespace K23Search.BkTree

open K23Search.Lib K23Search.Text

variable {T W : Type}

/-! ## Model -/

/-- a position below `bound` -/
def below (bound pos : ℕ) : Bool := pos < bound

/-- the values of an `int` that is not negative -/
def intPos : ℕ → Bool := below (2 ^ 31)

/-- `match(threshold, query)` -/
def matchInt (view : T → W) (dist : W → W → Option ℤ) (t : BkTree T) (threshold : ℤ) (query : W) : Option (List ℕ) :=
  matchWithin view dist intPos t threshold query

theorem below_of_lt {bound pos : ℕ} (h : pos < bound) : below bound pos = true := decide_eq_true h

theorem below_of_le {bound pos : ℕ} (h : bound ≤ pos) : below bound pos = false := decide_eq_false (Nat.not_lt.2 h)

/-! ## Overflow -/

section Overflow

variable {view : T → W} {dist : W → W → Option ℤ} {S : Set W} {d : W → W → ℤ} {t : BkTree T} {kids : ℕ → List ℕ}
  {bound : ℕ}

/-- the children in the window do not all fit -/
theorem pushChildren_full {nodes : List (BkNode T)} {lower upper : ℤ} {children : List ℕ}
    (hlt : ∀ c ∈ children, c < nodes.length) {st : Stack} {todo : List ℕ} (hst : StackRep st todo)
    (hbelow : todo.length < bound) (hasc : SkipList.Ascending (slCompare nodes) children)
    (hfull : bound ≤ todo.length + (children.filter (inWindow nodes lower upper)).length) :
    pushChildren (below bound) nodes lower upper children st = none := by
  induction children generalizing st todo with
  | nil => exact absurd hfull (Nat.not_le.2 hbelow)
  | cons c children ih =>
    obtain ⟨hc, hrest⟩ := List.pairwise_cons.1 hasc
    have hlt' : ∀ e ∈ children, e < nodes.length := fun e he => hlt e (List.mem_cons_of_mem _ he)
    obtain ⟨node, hget⟩ : ∃ node, nodes[c]? = some node := ⟨_, List.getElem?_eq_getElem (hlt c List.mem_cons_self)⟩
    have hdist : node.distanceFromParent = distanceOf nodes c := by rw [distanceOf, hget, Option.elim_some]
    simp only [pushChildren, hget, Option.bind_some, hdist]
    by_cases hlow : distanceOf nodes c < lower
    · have hout : ¬ inWindow nodes lower upper c = true := by simp [inWindow]; omega
      rw [List.filter_cons_of_neg hout] at hfull
      rw [if_pos hlow]
      exact ih hlt' hst hbelow hrest hfull
    · have hup : distanceOf nodes c ≤ upper := by
        by_contra hup
        rw [filter_past hasc (Int.not_le.1 hup)] at hfull
        exact absurd hfull (Nat.not_le.2 hbelow)
      have hin : inWindow nodes lower upper c = true := by simp [inWindow]; omega
      rw [List.filter_cons_of_pos hin, List.length_cons] at hfull
      rw [if_neg hlow, if_pos hup]
      by_cases hroom : todo.length + 1 < bound
      · obtain ⟨st', hpush, hst'⟩ := hst.push c (below_of_lt hroom)
        rw [hpush, Option.bind_some]
        apply ih hlt' hst' _ hrest
        · rw [List.length_append, List.length_singleton]
          omega
        · rwa [List.length_append, List.length_singleton]
      · rw [hst.push_full c (below_of_le (Nat.not_lt.1 hroom)), Option.bind_none]

/-- a search whose stack gets too large does not get past that turn -/
theorem matchLoop_full (hm : MetricOn S dist d) (h : Inv view S d t kids) {q : W} (hq : q ∈ S) {threshold : ℤ}
    (hfit : Fits view d t q threshold) (fuel : ℕ) {st : Stack} {todo : List ℕ} (hst : StackRep st todo)
    (htodo : ∀ i ∈ todo, i < t.nodes.length) (hbelow : todo.length < bound)
    (hfull : bound ≤ waiting view d t threshold q todo) (ret : List ℕ) :
    matchLoop view dist (below bound) t threshold q fuel st ret = none := by
  induction fuel generalizing st todo ret with
  | zero => rfl
  | succ fuel ih =>
    rcases List.eq_nil_or_concat' todo with rfl | ⟨todo, p, rfl⟩
    · exact absurd hfull (Nat.not_le.2 hbelow)
    · obtain ⟨st', hpop, hst'⟩ := hst.pop
      obtain ⟨node, hp, hword⟩ := word_of_lt view (htodo p (by simp))
      have hpos : st.pos ≠ 0 := by rw [hst.pos_eq]; simp
      have hturn : waiting view d t threshold q (todo ++ [p]) = _ := stackNeed_snoc (ranked h threshold q) todo p
      rw [List.length_append, List.length_singleton] at hbelow
      have hfull' : bound ≤ waiting view d t threshold q (todo ++ windowChildren view d t threshold q p) := by
        rw [hturn] at hfull
        exact (le_max_iff.1 hfull).resolve_left (Nat.not_le.2 hbelow)
      rw [matchLoop, if_neg hpos, hpop, Option.bind_some]
      simp only [hp, hm.defined _ (h.words p _ hword) q hq, Option.bind_some, pushWindow_eq h hp (hfit p _ hword)]
      by_cases hroom : todo.length + (windowChildren view d t threshold q p).length < bound
      · rw [windowChildren_eq h hp] at hroom hfull'
        obtain ⟨st₂, hpush, hst₂⟩ := pushChildren_spec _ _ (h.ascending p) (fun c hc => (h.kids_lt p c hc).2) hst'
          fun pos hpos => below_of_lt (Nat.lt_of_le_of_lt hpos hroom)
        rw [hpush, Option.bind_some]
        apply ih hst₂ _ _ hfull'
        · refine lt_append (fun i hi => htodo i (List.mem_append_left _ hi)) fun c hc => ?_
          exact (h.kids_lt p c (List.mem_filter.1 hc).1).2
        · rwa [List.length_append]
      · rw [windowChildren_eq h hp, Nat.not_lt] at hroom
        rw [pushChildren_full (fun c hc => (h.kids_lt p c hc).2) hst' (by omega) (h.ascending p) hroom,
          Option.bind_none]

/-- the largest stack below the bound is what the search needs -/
theorem matchWithin_below_iff (hm : MetricOn S dist d) (h : Inv view S d t kids) {q : W} (hq : q ∈ S) {threshold : ℤ}
    (hfit : Fits view d t q threshold) (hbound : 1 < bound) :
    (∃ r, t.matchWithin view dist (below bound) threshold q = some r) ↔ largestStack view d t threshold q < bound := by
  constructor
  · intro hr
    by_contra hfull
    rw [Nat.not_lt] at hfull
    obtain ⟨r, hr⟩ := hr
    by_cases hnil : t.nodes = []
    · rw [largestStack, h.root_eq, if_pos hnil, Option.elim_none] at hfull
      omega
    · have hroot : t.root = some 0 := by rw [h.root_eq, if_neg hnil]
      rw [largestStack, hroot, Option.elim_some] at hfull
      obtain ⟨st, hst, hrep⟩ := startStack_spec (h.depth_pos hnil) 0 (below_of_lt hbound)
      simp only [matchWithin, hroot, hst, Option.bind_some] at hr
      rw [matchLoop_full hm h hq hfit _ hrep (by simpa using List.length_pos_of_ne_nil hnil) hbound hfull] at hr
      cases hr
  · intro hlt
    obtain ⟨r, hr, -⟩ := matchWithin_spec hm h hq hfit fun pos hpos => below_of_lt (Nat.lt_of_le_of_lt hpos hlt)
    exact ⟨r, hr⟩

/-- **The overflow.** `match` is defined exactly when the largest stack of the search is below 2^31. -/
theorem matchInt_iff (hm : MetricOn S dist d) (h : Inv view S d t kids) {q : W} (hq : q ∈ S) {threshold : ℤ}
    (hfit : Fits view d t q threshold) :
    (∃ r, t.matchInt view dist threshold q = some r) ↔ largestStack view d t threshold q < 2 ^ 31 :=
  matchWithin_below_iff hm h hq hfit (by decide)

/-- a node waits once at most -/
theorem largestStack_le (h : Inv view S d t kids) (threshold : ℤ) (q : W) :
    largestStack view d t threshold q ≤ t.nodes.length := by
  by_cases hnil : t.nodes = []
  · rw [largestStack, h.root_eq, if_pos hnil, Option.elim_none]
    exact Nat.zero_le _
  · have hpos := List.length_pos_of_ne_nil hnil
    rw [largestStack, h.root_eq, if_neg hnil, Option.elim_some]
    have hforest : Forest (fun p c => c ∈ windowChildren view d t threshold q p) id :=
      ⟨fun p p' c hc hc' => h.parent_unique p p' c (windowChildren_kids h hc) (windowChildren_kids h hc'),
        fun p c hc => (ranked h threshold q p c hc).1⟩
    have hle := stackNeed_le (ranked h threshold q) hforest (windowChildren_nodup h threshold q)
      (fun p c hc => List.mem_range.2 (ranked h threshold q p c hc).2) (t.nodes.length + 1)
      (Worklist.init fun i hi => absurd hi id) (List.nil_subset (List.range t.nodes.length))
      (by simpa using hpos) (by simp)
    rwa [List.length_range] at hle

/-- **BK-tree search is exact**, after any sequence of `insert` calls, with repeated data and any heights, exactly when
fewer than 2^31 nodes wait on the stack at any time: then `match` is defined and returns the node of each call whose
datum is within the threshold, once, and no other. So it is after fewer than 2^31 inserts. -/
theorem match_exact_iff (view : T → W) (hm : MetricOn S dist d) (xs : List (T × ℕ)) (hwords : ∀ x ∈ xs, view x.1 ∈ S)
    (hheights : ∀ x ∈ xs, x.2 < bkTreeSkipListLevels) (q : W) (hq : q ∈ S) (threshold : ℤ)
    (hfit : ∀ x ∈ xs, intFits (d (view x.1) q - threshold) ∧ intFits (d (view x.1) q + threshold)) :
    ∃ t, run (step view dist) empty xs = some t ∧
      ((∃ r, t.matchInt view dist threshold q = some r ∧ r.Nodup ∧
        (∀ i, i ∈ r ↔ ∃ x, xs[i]? = some x ∧ d (view x.1) q ≤ threshold) ∧
        (r.filterMap fun i => t.nodes[i]?.map BkNode.data).Perm
          ((xs.map Prod.fst).filter fun x => d (view x) q ≤ threshold)) ↔
        largestStack view d t threshold q < 2 ^ 31) ∧
      (xs.length < 2 ^ 31 → largestStack view d t threshold q < 2 ^ 31) := by
  obtain ⟨t, kids, ht, hinv, hdata⟩ := run_spec hm hwords hheights
  have hword := wordOf_eq view hdata
  have hfits : Fits view d t q threshold := by
    intro i w hw
    rw [hword] at hw
    obtain ⟨x, hx, rfl⟩ := Option.map_eq_some_iff.1 hw
    exact hfit x (List.mem_of_getElem? hx)
  refine ⟨t, ht, ⟨fun hr => ?_, fun hlt => ?_⟩, fun hlen => ?_⟩
  · obtain ⟨r, hr, -⟩ := hr
    exact (matchInt_iff hm hinv hq hfits).1 ⟨r, hr⟩
  · obtain ⟨r, hr, hnd, hmem⟩ := matchWithin_spec hm hinv hq hfits fun pos hpos =>
      below_of_lt (Nat.lt_of_le_of_lt hpos hlt)
    have hperm := data_perm q threshold hnd hmem
    rw [hdata] at hperm
    refine ⟨r, hr, hnd, fun i => ?_, hperm⟩
    rw [hmem, Within, hword]
    cases xs[i]? <;> simp
  · have hnodes := congrArg List.length hdata
    rw [List.length_map, List.length_map] at hnodes
    exact Nat.lt_of_le_of_lt (largestStack_le hinv threshold q) (hnodes ▸ hlen)

end Overflow

/-- the tree of the repository's match test in small: a repeated word, at distance 0 of the query like its copy -/
theorem match_exact_repeated :
    ∃ t r, run (step id hammingDistance) empty [([104, 101], 1), ([104, 105], 3), ([104, 101], 0)] = some t ∧
      t.matchInt id hammingDistance 0 [104, 101] = some r ∧ r.Nodup ∧
      ∀ i, i ∈ r ↔ ∃ x, [(([104, 101] : List UInt8), 1), ([104, 105], 3), ([104, 101], 0)][i]? = some x ∧
        (mismatches x.1 [104, 101] : ℤ) ≤ 0 := by
  obtain ⟨t, ht, hiff, hfew⟩ := match_exact_iff id (hamming_metric 2)
    [([104, 101], 1), ([104, 105], 3), ([104, 101], 0)] (by decide) (by decide) [104, 101] (by decide) 0 (by decide)
  obtain ⟨r, hr, hnd, hmem, -⟩ := hiff.2 (hfew (by decide))
  exact ⟨t, r, ht, hr, hnd, hmem⟩

/-! ## A search that overflows -/

section Kids

variable {view : T → W} {S : Set W} {d : W → W → ℤ} {t : BkTree T} {kids : ℕ → List ℕ}

/-- a node below another one is below one of its children, at whose distance it is -/
theorem Inv.child_above (h : Inv view S d t kids) {p i : ℕ} {a b : W} (hd : Desc (fun p c => c ∈ kids p) p i)
    (hne : p ≠ i) (ha : wordOf view t.nodes p = some a) (hb : wordOf view t.nodes i = some b) :
    ∃ c ∈ kids p, Desc (fun p c => c ∈ kids p) c i ∧ distanceOf t.nodes c = d a b := by
  rcases hd.cases_head with rfl | ⟨c, hc, hci⟩
  · exact absurd rfl hne
  · exact ⟨c, hc, hci, (h.edges p c i a b hc hci ha hb).symm⟩

/-- one child for each distance -/
theorem Inv.kids_inj (h : Inv view S d t kids) {p c c' : ℕ} (hc : c ∈ kids p) (hc' : c' ∈ kids p)
    (heq : distanceOf t.nodes c = distanceOf t.nodes c') : c = c' :=
  List.inj_on_of_nodup_map (distances_nodup (h.ascending p)) hc hc' heq

theorem mem_windowChildren (h : Inv view S d t kids) {p c : ℕ} {a : W} (ha : wordOf view t.nodes p = some a)
    (threshold : ℤ) (q : W) : c ∈ windowChildren view d t threshold q p ↔
      c ∈ kids p ∧ d a q - threshold ≤ distanceOf t.nodes c ∧ distanceOf t.nodes c ≤ d a q + threshold := by
  obtain ⟨node, hp, rfl⟩ := node_of_word ha
  rw [windowChildren_eq h hp, List.mem_filter, inWindow, decide_eq_true_eq]

end Kids

/-- the larger of the differences of the coordinates -/
def gridDist (a b : ℤ × ℤ) : ℤ := max (a.1 - b.1).natAbs (a.2 - b.2).natAbs

def grid (last : ℕ) : Set (ℤ × ℤ) := {a | (0 ≤ a.1 ∧ a.1 ≤ last) ∧ 0 ≤ a.2 ∧ a.2 ≤ 2}

theorem grid_metric (last : ℕ) : MetricOn (grid last) (fun a b => some (gridDist a b)) gridDist where
  defined := fun _ _ _ _ => rfl
  nonneg := fun a _ b _ => by unfold gridDist; omega
  eq_zero := by
    intro a _ b _
    rw [Prod.ext_iff, gridDist]
    omega
  symm := by
    intro a _ b _
    rw [gridDist, gridDist]
    omega
  triangle := by
    intro a _ b _ c _
    rw [gridDist, gridDist, gridDist]
    omega

/-- a line of points from 0 on, and two more points at its end -/
def crowdPoint (m k : ℕ) : ℤ × ℤ :=
  if k < 2 * m then ((k : ℤ), 0) else (2 * m - 1, k - 2 * m + 1)

/-- the points of a crowd, each with the height 0 -/
def crowd (m : ℕ) : List ((ℤ × ℤ) × ℕ) := (List.range (2 * m + 2)).map fun k => (crowdPoint m k, 0)

section Crowd

variable {m : ℕ}

theorem crowdPoint_line {k : ℕ} (h : k < 2 * m) : crowdPoint m k = ((k : ℤ), 0) := if_pos h

theorem crowdPoint_mem {k : ℕ} (h : k < 2 * m + 2) (hm : 1 ≤ m) : crowdPoint m k ∈ grid (2 * m - 1) := by
  by_cases hk : k < 2 * m
  · rw [crowdPoint_line hk]
    refine ⟨⟨?_, ?_⟩, ?_, ?_⟩ <;> simp only <;> omega
  · rw [crowdPoint, if_neg hk]
    refine ⟨⟨?_, ?_⟩, ?_, ?_⟩ <;> simp only <;> omega

theorem mem_crowd {x : (ℤ × ℤ) × ℕ} (h : x ∈ crowd m) : ∃ k < 2 * m + 2, x = (crowdPoint m k, 0) := by
  obtain ⟨k, hk, rfl⟩ := List.mem_map.1 h
  exact ⟨k, List.mem_range.1 hk, rfl⟩

theorem crowd_mem {x : (ℤ × ℤ) × ℕ} (h : x ∈ crowd m) (hm : 1 ≤ m) : x.1 ∈ grid (2 * m - 1) := by
  obtain ⟨k, hk, rfl⟩ := mem_crowd h
  exact crowdPoint_mem hk hm

theorem crowd_heights {x : (ℤ × ℤ) × ℕ} (h : x ∈ crowd m) : x.2 < bkTreeSkipListLevels := by
  obtain ⟨k, -, rfl⟩ := mem_crowd h
  exact bkTreeSkipListLevels_pos

theorem crowd_get {k : ℕ} (h : k < 2 * m + 2) : (crowd m)[k]? = some (crowdPoint m k, 0) := by
  rw [crowd, List.getElem?_map, List.getElem?_range h, Option.map_some]

variable {t : BkTree (ℤ × ℤ)} {kids : ℕ → List ℕ}

/-- the nodes of `t` are a crowd -/
structure Crowded (m : ℕ) (t : BkTree (ℤ × ℤ)) (kids : ℕ → List ℕ) : Prop where
  inv : Inv id (grid (2 * m - 1)) gridDist t kids
  words : ∀ k < 2 * m + 2, wordOf id t.nodes k = some (crowdPoint m k)

/-- what a search around the middle of the line with half of it puts on its stack -/
def crowdWindow (m : ℕ) (t : BkTree (ℤ × ℤ)) (p : ℕ) : List ℕ := windowChildren id gridDist t (m - 1) (m, 0) p

theorem Crowded.line (h : Crowded m t kids) {k : ℕ} (hk : k < 2 * m) : wordOf id t.nodes k = some ((k : ℤ), 0) := by
  rw [h.words k (by omega), crowdPoint_line hk]

/-- above a node there is a child of the root at its distance -/
theorem Crowded.child (h : Crowded m t kids) (hm : 2 ≤ m) {k : ℕ} (hk : 1 ≤ k) (hlt : k < 2 * m + 2) :
    ∃ c ∈ kids 0, Desc (fun p c => c ∈ kids p) c k ∧ distanceOf t.nodes c = min k (2 * m - 1) := by
  have hword := h.words k hlt
  obtain ⟨c, hc, hck, hdist⟩ := h.inv.child_above (h.inv.reach k (lt_of_word hword)) (by omega)
    (h.line (by omega : 0 < 2 * m)) hword
  refine ⟨c, hc, hck, hdist.trans ?_⟩
  by_cases hline : k < 2 * m
  · rw [crowdPoint_line hline]
    simp only [gridDist]
    omega
  · rw [crowdPoint, if_neg hline]
    simp only [gridDist]
    omega

theorem Crowded.mem_window (h : Crowded m t kids) (hm : 2 ≤ m) {c : ℕ} :
    c ∈ crowdWindow m t 0 ↔ c ∈ kids 0 ∧ 1 ≤ distanceOf t.nodes c ∧ distanceOf t.nodes c ≤ 2 * m - 1 := by
  rw [crowdWindow, mem_windowChildren h.inv (h.line (by omega : 0 < 2 * m))]
  have hval : gridDist (((0 : ℕ) : ℤ), 0) ((m : ℤ), 0) = m := by simp only [gridDist]; omega
  rw [hval]
  exact and_congr_right fun _ => by omega

/-- the root has a child in the window for each distance up to the end of the line -/
theorem Crowded.many (h : Crowded m t kids) (hm : 2 ≤ m) : 2 * m - 1 ≤ (crowdWindow m t 0).length := by
  have hsub : (List.range' 1 (2 * m - 1)).map (fun k : ℕ => (k : ℤ)) ⊆
      (crowdWindow m t 0).map (distanceOf t.nodes) := by
    intro x hx
    obtain ⟨k, hk, rfl⟩ := List.mem_map.1 hx
    rw [List.mem_range'_1] at hk
    obtain ⟨c, hc, -, hdist⟩ := h.child hm hk.1 (by omega)
    exact List.mem_map.2 ⟨c, (h.mem_window hm).2 ⟨hc, by omega⟩, by omega⟩
  have hnd : ((List.range' 1 (2 * m - 1)).map (fun k : ℕ => (k : ℤ))).Nodup :=
    (List.nodup_range').map fun a b hab => Int.ofNat.inj hab
  simpa using (hnd.subperm hsub).length_le

/-- the end of the line is below the root, above the two points at it -/
theorem Crowded.end_child (h : Crowded m t kids) (hm : 2 ≤ m) : 2 * m - 1 ∈ kids 0 ∧
    distanceOf t.nodes (2 * m - 1) = 2 * m - 1 ∧
    ∀ k < 2 * m + 2, 2 * m - 1 ≤ k → Desc (fun p c => c ∈ kids p) (2 * m - 1) k := by
  obtain ⟨e, he, hend, hdist⟩ := h.child hm (by omega : 1 ≤ 2 * m - 1) (by omega)
  have hle : e ≤ 2 * m - 1 := h.inv.forest.rank_le hend
  have hval : gridDist (((0 : ℕ) : ℤ), 0) ((e : ℤ), 0) = e := by simp only [gridDist]; omega
  have hedge := h.inv.edges 0 e e _ _ he .refl (h.line (by omega)) (h.line (by omega))
  obtain rfl : e = 2 * m - 1 := by omega
  refine ⟨he, by omega, fun k hk hge => ?_⟩
  obtain ⟨c, hc, hck, hdist'⟩ := h.child hm (by omega) hk
  rwa [h.inv.kids_inj hc he (by omega)] at hck

/-- the two points at the end of the line are at different distances from it, both in the window -/
theorem Crowded.two (h : Crowded m t kids) (hm : 2 ≤ m) : 2 ≤ (crowdWindow m t (2 * m - 1)).length := by
  obtain ⟨-, -, hbelow⟩ := h.end_child hm
  have hend := h.line (by omega : 2 * m - 1 < 2 * m)
  have hchild : ∀ j : ℕ, 1 ≤ j → j ≤ 2 → ∃ c ∈ crowdWindow m t (2 * m - 1), distanceOf t.nodes c = j := by
    intro j hj hle
    have hword := h.words (2 * m - 1 + j) (by omega)
    rw [crowdPoint, if_neg (by omega)] at hword
    obtain ⟨c, hc, -, hdist⟩ := h.inv.child_above (hbelow _ (by omega) (by omega)) (by omega) hend hword
    have hval : distanceOf t.nodes c = j := by
      rw [hdist]
      simp only [gridDist]
      omega
    refine ⟨c, (mem_windowChildren h.inv hend _ _).2 ⟨hc, ?_⟩, hval⟩
    rw [hval]
    simp only [gridDist]
    omega
  obtain ⟨c, hc, hdist⟩ := hchild 1 (by omega) (by omega)
  obtain ⟨c', hc', hdist'⟩ := hchild 2 (by omega) (by omega)
  have hnd : [c, c'].Nodup := List.nodup_cons.2 ⟨fun hmem => by
    rw [List.mem_singleton.1 hmem] at hdist
    omega, List.nodup_singleton c'⟩
  exact (hnd.subperm (List.cons_subset.2 ⟨hc, List.cons_subset.2 ⟨hc', List.nil_subset _⟩⟩)).length_le

/-- the points of the line wait on the stack with the two at its end -/
theorem Crowded.waits (h : Crowded m t kids) (hm : 2 ≤ m) :
    2 * m ≤ largestStack id gridDist t (m - 1) (m, 0) := by
  obtain ⟨he, hfar, -⟩ := h.end_child hm
  have hmem : 2 * m - 1 ∈ crowdWindow m t 0 := (h.mem_window hm).2 ⟨he, by omega⟩
  have hmany := h.many hm
  have htwo := h.two hm
  -- the node that is popped first is the end of the line
  obtain ⟨pre, hsplit⟩ : ∃ pre, crowdWindow m t 0 = pre ++ [2 * m - 1] := by
    rcases List.eq_nil_or_concat' (crowdWindow m t 0) with hnil | ⟨pre, e, hsplit⟩
    · rw [hnil] at hmem
      cases hmem
    · refine ⟨pre, ?_⟩
      rw [hsplit, List.mem_append, List.mem_singleton] at hmem
      rcases hmem with hmem | rfl
      · have hlast := (h.mem_window hm).1 (hsplit ▸ List.mem_append_right pre (List.mem_singleton_self e))
        have hasc : SkipList.Ascending (slCompare t.nodes) (pre ++ [e]) := by
          rw [← hsplit]
          exact windowChildren_ascending h.inv _ _ 0
        have := (List.pairwise_append.1 hasc).2.2 _ hmem e (List.mem_singleton_self e)
        simp only [slCompare] at this
        omega
      · exact hsplit
  rw [hsplit, List.length_append, List.length_singleton] at hmany
  have hne : t.nodes ≠ [] := fun hnil => by
    have hword := h.line (by omega : 0 < 2 * m)
    rw [hnil] at hword
    cases hword
  have hroot : t.root = some 0 := by rw [h.inv.root_eq, if_neg hne]
  have hranked : Ranked (crowdWindow m t) id t.nodes.length := ranked h.inv _ _
  calc 2 * m ≤ (pre ++ crowdWindow m t (2 * m - 1)).length := by
        rw [List.length_append]
        omega
    _ ≤ stackNeed (crowdWindow m t) t.nodes.length (pre ++ crowdWindow m t (2 * m - 1)) := length_le_stackNeed _ _ _
    _ ≤ stackNeed (crowdWindow m t) t.nodes.length (pre ++ [2 * m - 1]) := by
        rw [stackNeed_snoc hranked]
        exact Nat.le_max_right _ _
    _ ≤ stackNeed (crowdWindow m t) t.nodes.length ([] ++ [0]) := by
        rw [stackNeed_snoc hranked [] 0, List.nil_append, hsplit]
        exact Nat.le_max_right _ _
    _ = largestStack id gridDist t (m - 1) (m, 0) := by
        rw [largestStack, hroot]
        rfl

/-- the middle of the line, and the bounds of the search around it -/
theorem crowd_search (hm : 2 ≤ m) (hle : 2 * m ≤ 2 ^ 31) : ((m : ℤ), (0 : ℤ)) ∈ grid (2 * m - 1) ∧
    ∀ a ∈ grid (2 * m - 1), intFits (gridDist a (m, 0) - (m - 1)) ∧ intFits (gridDist a (m, 0) + (m - 1)) := by
  constructor
  · rw [← crowdPoint_line (by omega : m < 2 * m)]
    exact crowdPoint_mem (by omega) (by omega)
  · intro a ha
    obtain ⟨⟨h1, h2⟩, h3, h4⟩ := ha
    simp only [intFits, gridDist]
    omega

/-- the search overflows a bound that is as long as the line -/
theorem crowd_full (hm : 2 ≤ m) (hle : 2 * m ≤ 2 ^ 31) :
    ∃ t, run (step id fun a b => some (gridDist a b)) empty (crowd m) = some t ∧
      t.matchWithin id (fun a b => some (gridDist a b)) (below (2 * m)) (m - 1) (m, 0) = none := by
  have hmetric := grid_metric (2 * m - 1)
  obtain ⟨hq, hfit⟩ := crowd_search hm hle
  have hmem : ∀ x ∈ crowd m, id x.1 ∈ grid (2 * m - 1) := fun x hx => crowd_mem hx (by omega)
  obtain ⟨t, kids, ht, hinv, hdata⟩ := run_spec hmetric hmem fun x hx => crowd_heights hx
  have hwords : ∀ k < 2 * m + 2, wordOf id t.nodes k = some (crowdPoint m k) := by
    intro k hk
    rw [wordOf_eq id hdata, crowd_get hk]
    rfl
  refine ⟨t, ht, Option.eq_none_iff_forall_not_mem.2 fun r hr => ?_⟩
  have hlt := (matchWithin_below_iff hmetric hinv hq (fun i w hw => hfit w (hinv.words i w hw)) (by omega)).1 ⟨r, hr⟩
  exact absurd (Crowded.waits ⟨hinv, hwords⟩ hm) (Nat.not_le.2 hlt)

/-- **A crowd.** 2^31 + 2 words, in a metric whose values fit an `int`, as do the bounds of every window of the search:
of the 2^31 - 1 children of the root in the window, the one that is popped first has two children in its own window,
and the second of these overflows `curr_stack_pos`. -/
theorem crowd_overflows :
    MetricOn (grid (2 ^ 31 - 1)) (fun a b => some (gridDist a b)) gridDist ∧
    (∀ a ∈ grid (2 ^ 31 - 1), ∀ b ∈ grid (2 ^ 31 - 1), intFits (gridDist a b)) ∧
    (∀ x ∈ crowd (2 ^ 30), x.1 ∈ grid (2 ^ 31 - 1) ∧ x.2 < bkTreeSkipListLevels) ∧
    (2 ^ 30, 0) ∈ grid (2 ^ 31 - 1) ∧
    (∀ x ∈ crowd (2 ^ 30),
      intFits (gridDist x.1 (2 ^ 30, 0) - (2 ^ 30 - 1)) ∧ intFits (gridDist x.1 (2 ^ 30, 0) + (2 ^ 30 - 1))) ∧
    ∃ t, run (step id fun a b => some (gridDist a b)) empty (crowd (2 ^ 30)) = some t ∧
      t.matchInt id (fun a b => some (gridDist a b)) (2 ^ 30 - 1) (2 ^ 30, 0) = none := by
  have hcast : ((2 ^ 30 : ℕ) : ℤ) = 2 ^ 30 := by norm_num
  have hlast : 2 * 2 ^ 30 - 1 = 2 ^ 31 - 1 := by norm_num
  have hsearch := @crowd_search (2 ^ 30) (by norm_num) (by norm_num)
  have hfull := @crowd_full (2 ^ 30) (by norm_num) (by norm_num)
  rw [hcast, hlast] at hsearch
  rw [hcast] at hfull
  have hmem : ∀ x ∈ crowd (2 ^ 30), x.1 ∈ grid (2 ^ 31 - 1) := fun x hx => hlast ▸ crowd_mem hx (by norm_num)
  refine ⟨grid_metric _, fun a ha b hb => ?_, fun x hx => ⟨hmem x hx, crowd_heights hx⟩, hsearch.1,
    fun x hx => hsearch.2 _ (hmem x hx), hfull⟩
  obtain ⟨⟨h1, h2⟩, h3, h4⟩ := ha
  obtain ⟨⟨h5, h6⟩, h7, h8⟩ := hb
  simp only [intFits, gridDist]
  omega

end Crowd

end K23Search.BkTree
