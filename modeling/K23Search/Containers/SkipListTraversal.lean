/-
Traversal of a `qs::skip_list` from the iterator that `find` returns.

`find` stops at the highest node of a tower, and `operator++` follows `next` on the level of that node, so the traversal
passes over every greater element with a lower tower. The height of a tower is the one drawn for the first insert of its
element (`towerHeight`).

Results, for a comparison that is a total preorder:
- `run_levels`: after every run of inserts, level `i` has the elements whose towers are at least `i` high;
- `after_eq`: what the traversal visits;
- `run_resumes`: it visits the elements after `x` exactly when none of them has a lower tower than `x`.
-/
import K23Search.Containers.SkipListCopy

namespace K23Search.SkipList

open K23Search.Lib

variable {T : Type} {L : ℕ}

/-! ## Model -/

/-- the elements visited by `for (++it; it != end(); ++it)` from `it = find(x)`. `none`: an increment of `end()`, which
is undefined. -/
def after (cmp : T → T → ℤ) (s : SkipList T L) (x : T) : Option (List T) := do
  let curr ← find cmp s x
  let n ← curr
  walk s s.fresh (s.next n)

/-- the traversal from `find(x)` visits what the iteration from `begin()` visits after `x`, which are the greater
elements -/
def Resumes (cmp : T → T → ℤ) (s : SkipList T L) (x : T) : Prop :=
  ∃ pre post, toList s = some (pre ++ x :: post) ∧ (pre ++ x :: post).filter (fun y => 0 < cmp y x) = post ∧
    after cmp s x = some post

/-- the height drawn for the first insert of an element equal to `y` -/
def towerHeight (cmp : T → T → ℤ) (xs : List (T × ℕ)) (y : T) : ℕ :=
  ((xs.find? fun a => cmp a.1 y = 0).map Prod.snd).getD 0

/-! ## Levels -/

section Levels

variable {cmp : T → T → ℤ} {s : SkipList T L} {lv : ℕ → List ℕ} {xs : List (T × ℕ)} {x : T}

theorem towerHeight_old {y z : T} (hz : z ∈ xs.map Prod.fst) (hzy : cmp z y = 0) (ys : List (T × ℕ)) :
    towerHeight cmp (xs ++ ys) y = towerHeight cmp xs y := by
  obtain ⟨a, ha, rfl⟩ := List.mem_map.1 hz
  have hsome : (xs.find? fun b => cmp b.1 y = 0).isSome := List.find?_isSome.2 ⟨a, ha, by simpa using hzy⟩
  obtain ⟨b, hb⟩ := Option.isSome_iff_exists.1 hsome
  rw [towerHeight, towerHeight, List.find?_append, hb]
  rfl

theorem towerHeight_new (hcmp : LawfulCmp cmp) (hno : ∀ z ∈ xs.map Prod.fst, cmp z x ≠ 0) (height : ℕ) :
    towerHeight cmp (xs ++ [(x, height)]) x = height := by
  have hnone : (xs.find? fun a => cmp a.1 x = 0) = none :=
    List.find?_eq_none.2 fun a ha => by simpa using hno a.1 (List.mem_map_of_mem ha)
  rw [towerHeight, List.find?_append, hnone]
  simp [hcmp.refl x]

/-- level `i` has the elements whose towers are at least `i` high -/
def Leveled (cmp : T → T → ℤ) (xs : List (T × ℕ)) (s : SkipList T L) (lv : ℕ → List ℕ) : Prop :=
  ∀ i y, y ∈ s.elems (lv i) ↔ y ∈ s.elems (lv 0) ∧ i ≤ towerHeight cmp xs y

theorem Rep.elems_ground (h : Rep s lv) {i : ℕ} {y : T} (hy : y ∈ s.elems (lv i)) : y ∈ s.elems (lv 0) := by
  obtain ⟨n, hn, hv⟩ := List.mem_filterMap.1 hy
  exact h.value_mem hn hv

/-- one insert keeps the elements on their levels -/
theorem Leveled.insert (h : Leveled cmp xs s lv) (hcmp : LawfulCmp cmp) (hb : Built cmp (xs.map Prod.fst) s lv)
    {height : ℕ} {s' : SkipList T L} {lv' : ℕ → List ℕ} (hr : Raised cmp (xs.map Prod.fst) x height s s' lv lv') :
    Leveled cmp (xs ++ [(x, height)]) s' lv' := by
  intro i y
  rw [hr i y, hr 0 y]
  by_cases hy : y ∈ s.elems (lv 0)
  · have hyy := hcmp.refl y
    have hkeys := hb.inserted hy
    have hnot : ¬(y = x ∧ i ≤ height ∧ ∀ z ∈ xs.map Prod.fst, cmp z x ≠ 0) := by
      intro hnew
      obtain ⟨rfl, -, hno⟩ := hnew
      exact hno y hkeys hyy
    rw [towerHeight_old hkeys hyy, or_iff_left hnot, h i y]
    exact and_congr_left' (iff_of_true hy (.inl hy))
  · have hyi : y ∉ s.elems (lv i) := fun hm => hy (hb.elems_ground hm)
    simp only [hy, hyi, false_or, Nat.zero_le, true_and]
    constructor
    · intro hnew
      obtain ⟨rfl, hi, hno⟩ := hnew
      rw [towerHeight_new hcmp hno]
      exact ⟨⟨rfl, hno⟩, hi⟩
    · intro hnew
      obtain ⟨⟨rfl, hno⟩, hi⟩ := hnew
      rw [towerHeight_new hcmp hno] at hi
      exact ⟨rfl, hi, hno⟩

theorem run_levels (hcmp : LawfulCmp cmp) (xs : List (T × ℕ)) (hheights : ∀ a ∈ xs, a.2 < L) :
    ∃ s lv, run (step cmp) (empty : SkipList T L) xs = some s ∧ Built cmp (xs.map Prod.fst) s lv ∧
      Leveled cmp xs s lv := by
  induction xs using List.reverseRecOn with
  | nil => exact ⟨empty, fun _ => [], rfl, built_empty, fun i y => by simp [elems]⟩
  | append_singleton xs a ih =>
    obtain ⟨s, lv, hrun, hb, hlevels⟩ := ih fun b hb => hheights b (List.mem_append_left _ hb)
    obtain ⟨s', lv', hins, hb', hr⟩ := hb.insert hcmp a.1 (hheights a (by simp))
    refine ⟨s', lv', ?_, ?_, hlevels.insert hcmp hb hr⟩
    · rw [run_snoc, hrun]
      exact hins
    · rw [List.map_append]
      exact hb'

/-! ## Traversal -/

/-- in an ascending list the greater elements are those behind `x` -/
theorem filter_greater (hcmp : LawfulCmp cmp) {as bs : List T} (h : Ascending cmp (as ++ x :: bs)) :
    (as ++ x :: bs).filter (fun y => 0 < cmp y x) = bs := by
  obtain ⟨-, hbs, has⟩ := List.pairwise_append.1 h
  have hleft : as.filter (fun y => 0 < cmp y x) = [] := by
    apply List.filter_eq_nil_iff.2
    intro y hy
    have := has y hy x List.mem_cons_self
    simp only [decide_eq_true_eq]
    omega
  have hright : bs.filter (fun y => 0 < cmp y x) = bs := by
    apply List.filter_eq_self.2
    intro y hy
    exact decide_eq_true ((hcmp.swap x y).1 ((List.pairwise_cons.1 hbs).1 y hy))
  rw [List.filter_append, hleft, List.filter_cons_of_neg (by simp [hcmp.refl x]), hright, List.nil_append]

/-- the traversal from `find(x)` visits the greater elements of the level of `x`'s highest node -/
theorem after_eq (hcmp : LawfulCmp cmp) (hb : Built cmp (xs.map Prod.fst) s lv) (hlevels : Leveled cmp xs s lv)
    (hx : x ∈ s.elems (lv 0)) :
    after cmp s x = some ((s.elems (lv (towerHeight cmp xs x))).filter fun y => 0 < cmp y x) := by
  have hs : Sorted cmp s lv := ⟨hb.toRep, hcmp, hb.sorted⟩
  obtain ⟨r, hr, hsome, hnone⟩ := findNode_spec hs (entry_head hs x (L - 1))
  obtain ⟨m, hm, hmx⟩ := List.mem_filterMap.1 hx
  cases r with
  | none =>
    have := hnone rfl m hm
    simp [isEqual, hmx, hcmp.refl x] at this
  | some n =>
    obtain ⟨⟨j, hjL, hn, habove⟩, heq⟩ := hsome n rfl
    obtain ⟨y, hny, hyx⟩ := isEqual_iff.1 heq
    obtain rfl : y = x := hb.sorted.eq_of_equal hcmp (hb.value_mem hn hny) hx hyx
    -- the search goes on below the tower's height only if `x` is missing there
    have hj : j = towerHeight cmp xs y := by
      have hle := ((hlevels j y).1 (List.mem_filterMap.2 ⟨n, hn, hny⟩)).2
      by_contra hne
      obtain ⟨k, hk, hky⟩ := List.mem_filterMap.1 ((hlevels (towerHeight cmp xs y) y).2 ⟨hx, Nat.le_refl _⟩)
      have hlt : towerHeight cmp xs y < L := by
        by_contra hge
        rw [hb.bounded _ (by omega)] at hk
        cases hk
      have := habove _ (by omega) (by omega) k hk
      simp [isEqual, hky, hcmp.refl y] at this
    rw [← hj]
    obtain ⟨as, bs, hlv⟩ := List.append_of_mem hn
    have hsorted := hb.level_sorted j
    have hseg := hb.segs j
    have hlen := hb.length_le j
    have hval : ∀ m ∈ bs, ∃ z, s.value m = some z := fun m hm => hb.valued j m (by simp [hlv, hm])
    have helems : s.elems (lv j) = s.elems as ++ y :: s.elems bs := by
      rw [hlv]
      simp only [elems, List.filterMap_append, List.filterMap_cons, hny]
    rw [hlv, seg_append] at hseg
    rw [hlv, List.length_append, List.length_cons] at hlen
    obtain ⟨-, -, hnext, hrest⟩ := hseg
    rw [Option.or_none] at hnext
    rw [helems] at hsorted ⊢
    calc after cmp s y
        = walk s s.fresh (s.next n) := by rw [after, find, hr]; rfl
      _ = some (s.elems bs) := by rw [hnext]; exact walk_spec hrest hval (by omega)
      _ = _ := by rw [filter_greater hcmp hsorted]

theorem resumes_iff (hcmp : LawfulCmp cmp) (hb : Built cmp (xs.map Prod.fst) s lv) (hlevels : Leveled cmp xs s lv)
    (hx : x ∈ s.elems (lv 0)) :
    Resumes cmp s x ↔
      ∀ y ∈ s.elems (lv 0), 0 < cmp y x → towerHeight cmp xs x ≤ towerHeight cmp xs y := by
  have hlist := toList_spec hb.holds
  have hafter := after_eq hcmp hb hlevels hx
  constructor
  · intro h
    obtain ⟨pre, post, hall, hgreater, hpost⟩ := h
    rw [hlist, Option.some.injEq] at hall
    rw [hafter, ← hgreater, ← hall, Option.some.injEq] at hpost
    intro y hy hyx
    have hmem : y ∈ (s.elems (lv (towerHeight cmp xs x))).filter fun y => 0 < cmp y x := by
      rw [hpost]
      exact List.mem_filter.2 ⟨hy, decide_eq_true hyx⟩
    exact ((hlevels _ y).1 (List.mem_filter.1 hmem).1).2
  · intro h
    obtain ⟨pre, post, hsplit⟩ := List.append_of_mem hx
    have hsorted := hb.sorted
    have hgreater := filter_greater hcmp (hsplit ▸ hsorted)
    refine ⟨pre, post, by rw [hlist, hsplit], hgreater, ?_⟩
    rw [hafter, ← hgreater, ← hsplit]
    apply congrArg some
    apply Ascending.eq_of_mem hcmp ((hb.level_sorted _).filter _) (hsorted.filter _)
    intro y
    rw [List.mem_filter, List.mem_filter, hlevels _ y, decide_eq_true_eq]
    constructor
    · intro hy
      exact ⟨hy.1.1, hy.2⟩
    · intro hy
      exact ⟨⟨hy.1, h y hy.1 hy.2⟩, hy.2⟩

end Levels

/-- **Traversal from a found element.** After every run of inserts, with any heights, and for every element `x`: the
iterator of `find(x)` goes on with the elements after `x` exactly when each of them has a tower at least as high as
that of `x`. -/
theorem run_resumes {cmp : T → T → ℤ} (hcmp : LawfulCmp cmp) (xs : List (T × ℕ)) (hheights : ∀ a ∈ xs, a.2 < L) :
    ∃ s keys, run (step cmp) (empty : SkipList T L) xs = some s ∧ toList s = some keys ∧ Ascending cmp keys ∧
      ∀ x ∈ keys, Resumes cmp s x ↔
        ∀ y ∈ keys, 0 < cmp y x → towerHeight cmp xs x ≤ towerHeight cmp xs y := by
  obtain ⟨s, lv, hrun, hb, hlevels⟩ := run_levels hcmp xs hheights
  exact ⟨s, _, hrun, toList_spec hb.holds, hb.sorted, fun x hx => resumes_iff hcmp hb hlevels hx⟩

theorem run_resumes_three :
    ∃ s keys, run (step fun a b : ℤ => a - b) (empty : SkipList ℤ 4) [(3, 2), (1, 0), (2, 3)] = some s ∧
      toList s = some keys ∧ Ascending (fun a b => a - b) keys ∧
      ∀ x ∈ keys, Resumes (fun a b => a - b) s x ↔
        ∀ y ∈ keys, 0 < y - x → towerHeight (fun a b => a - b) [(3, 2), (1, 0), (2, 3)] x ≤
          towerHeight (fun a b => a - b) [(3, 2), (1, 0), (2, 3)] y :=
  run_resumes lawful_sub [(3, 2), (1, 0), (2, 3)] (by decide)

/-- 1 with a tower of two nodes, 2 with one node: after `find(1)` comes `end()` -/
theorem find_skips_low_tower :
    ∃ s, run (step fun a b : ℤ => a - b) (empty : SkipList ℤ 2) [(1, 1), (2, 0)] = some s ∧
      toList s = some [1, 2] ∧ ¬Resumes (fun a b => a - b) s 1 := by
  refine ⟨_, rfl, rfl, ?_⟩
  intro h
  obtain ⟨pre, post, hall, hgreater, hpost⟩ := h
  have hpost' : some [] = some post := hpost
  have hall' : some [1, 2] = some (pre ++ 1 :: post) := hall
  rw [Option.some.injEq] at hpost' hall'
  rw [← hall', ← hpost'] at hgreater
  exact absurd hgreater (by decide)

end K23Search.SkipList
