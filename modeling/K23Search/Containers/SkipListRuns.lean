/-
Runs of `qs::skip_list` inserts from an empty list, with any outcomes of `random_level`.

`Built keys s lv` is the whole representation after `keys` were inserted: the links (`Rep`), the towers of copies
(`Towers`), and which data level 0 has, by their positions in `data_list`, which also keeps the elements that were not
linked.

Results, for a comparison that is a total preorder:
- `run_built`: every run of inserts is defined and ends in a list that is `Built`;
- `run_find`: `find` in such a list is defined for every element, and agrees with a scan of what the iteration visits.
-/
import K23Search.Containers.SkipList
import K23Search.Lib.Run

namespace K23Search.SkipList

open K23Search.Lib

variable {T : Type} {L : ℕ}

/-- `insert` of an element at a height -/
def step (cmp : T → T → ℤ) (s : SkipList T L) (a : T × ℕ) : Option (SkipList T L) := insert cmp s a.1 a.2

/-! ## Towers -/

/-- `top` is the inverse of `bottom`, and there are no levels above `L` -/
structure Towers (s : SkipList T L) (lv : ℕ → List ℕ) : Prop where
  ground : ∀ n ∈ lv 0, s.bottom n = none
  up : ∀ i, ∀ n ∈ lv (i + 1), ∀ b, s.bottom n = some b → s.top b = some n
  down : ∀ i, ∀ b ∈ lv i, ∀ n, s.top b = some n → n ∈ lv (i + 1) ∧ s.bottom n = some b
  bounded : ∀ i, L ≤ i → lv i = []

section Towers

variable {cmp : T → T → ℤ} {s t : SkipList T L} {lv : ℕ → List ℕ} {data k : ℕ} {x : T}

theorem mem_grown (hs : Sorted cmp s lv) {i n : ℕ} :
    n ∈ grown cmp s lv x k i ↔ n ∈ lv i ∨ (i < k ∧ n = s.fresh + i) := by
  rw [grown]
  split
  · next hi =>
    have hmem : n ∈ lv i ↔ n ∈ s.left cmp x (lv i) ∨ n ∈ s.right cmp x (lv i) := by
      rw [← List.mem_append, ← hs.eq_split x i]
    simp only [hmem, List.mem_append, List.mem_cons]
    tauto
  · next hi => simp [hi]

/-- a new tower keeps the towers -/
theorem Towers.grown (h : Towers s lv) (hs : Sorted cmp s lv) (hg : Grown cmp s lv data x k t) (ht : Tower s k t)
    (hk : k ≤ L) : Towers t (grown cmp s lv x k) := by
  have hbottom : ∀ i, ∀ n ∈ lv i, t.bottom n = s.bottom n := fun i n hn => (hg.old n (hs.lt_fresh i n hn)).2
  have htop : ∀ i, ∀ n ∈ lv i, t.top n = s.top n := fun i n hn => ht.top_old n (hs.lt_fresh i n hn)
  have hnew : ∀ i, i + 1 < k → t.bottom (s.fresh + (i + 1)) = some (s.fresh + i) := by
    intro i hi
    rw [ht.bottom_new (i + 1) hi, lastMade, if_neg (Nat.succ_ne_zero i)]
    exact congrArg some (by omega)
  constructor
  case ground =>
    intro n hn
    cases (mem_grown hs).1 hn with
    | inl hold => rw [hbottom 0 n hold, h.ground n hold]
    | inr hadd => rw [hadd.2, ht.bottom_new 0 hadd.1, lastMade, if_pos rfl]
  case up =>
    intro i n hn b hb
    cases (mem_grown hs).1 hn with
    | inl hold =>
      rw [hbottom (i + 1) n hold] at hb
      obtain ⟨c, hc, hcb, -⟩ := hs.bottom_mem hold
      rw [hb, Option.some.injEq] at hcb
      rw [htop i b (hcb ▸ hc), h.up i n hold b hb]
    | inr hadd =>
      rw [hadd.2, hnew i hadd.1, Option.some.injEq] at hb
      rw [← hb, ht.top_new i (by omega), if_pos hadd.1, hadd.2]
  case down =>
    intro i b hb n hn
    rw [mem_grown hs]
    cases (mem_grown hs).1 hb with
    | inl hold =>
      rw [htop i b hold] at hn
      obtain ⟨hmem, hbot⟩ := h.down i b hold n hn
      exact ⟨.inl hmem, (hbottom (i + 1) n hmem).trans hbot⟩
    | inr hadd =>
      rw [hadd.2, ht.top_new i hadd.1] at hn
      split at hn
      · next hi =>
        rw [Option.some.injEq] at hn
        exact ⟨.inr ⟨hi, hn.symm⟩, by rw [← hn, hnew i hi, hadd.2]⟩
      · cases hn
  case bounded =>
    intro i hi
    rw [SkipList.grown, if_neg (by omega)]
    exact h.bounded i hi

end Towers

/-! ## First representatives -/

section First

variable {cmp : T → T → ℤ}

theorem LawfulCmp.symm (h : LawfulCmp cmp) {a b : T} (hab : cmp a b = 0) : cmp b a = 0 := by
  have h1 := h.swap a b
  have h2 := h.swap b a
  omega

theorem LawfulCmp.equal_trans (h : LawfulCmp cmp) {a b c : T} (hab : cmp a b = 0) (hbc : cmp b c = 0) : cmp a c = 0 := by
  have hac := h.trans a b c (by omega) (by omega)
  have hca := h.trans c b a (by have := h.symm hbc; omega) (by have := h.symm hab; omega)
  have := (h.swap a c).1
  omega

theorem LawfulCmp.lt_of_lt_of_equal (h : LawfulCmp cmp) {a b c : T} (hab : cmp a b < 0) (hbc : cmp b c = 0) :
    cmp a c < 0 := by
  by_contra hac
  have hca : cmp c a ≤ 0 := by
    by_contra hca
    exact hac ((h.swap a c).2 (by omega))
  have := h.trans b c a (by omega) hca
  have := (h.swap a b).1 hab
  omega

/-- the element at position `p` is the first of its class -/
def IsFirst (cmp : T → T → ℤ) (keys : List T) (p : ℕ) : Prop :=
  ∃ y, keys[p]? = some y ∧ ∀ z ∈ keys.take p, cmp z y ≠ 0

/-- every class has a first element -/
theorem exists_first (h : LawfulCmp cmp) {keys : List T} {z : T} (hz : z ∈ keys) :
    ∃ p y, IsFirst cmp keys p ∧ keys[p]? = some y ∧ cmp y z = 0 := by
  have hzz : cmp z z = 0 := by
    have := h.swap z z
    omega
  have hsome : (keys.find? fun y => decide (cmp y z = 0)).isSome := by
    rw [List.find?_isSome]
    exact ⟨z, hz, by simpa using hzz⟩
  obtain ⟨y, hy⟩ := Option.isSome_iff_exists.1 hsome
  obtain ⟨hyz, as, bs, rfl, has⟩ := List.find?_eq_some_iff_append.1 hy
  simp only [decide_eq_true_eq, Bool.not_eq_true', decide_eq_false_iff_not] at hyz has
  have hget : (as ++ y :: bs)[as.length]? = some y := by simp
  refine ⟨as.length, y, ⟨y, hget, fun w hw hwy => ?_⟩, hget, hyz⟩
  rw [List.take_left] at hw
  exact has w hw (h.equal_trans hwy hyz)

theorem isFirst_append {keys : List T} {x : T} {p : ℕ} :
    IsFirst cmp (keys ++ [x]) p ↔
      IsFirst cmp keys p ∨ (p = keys.length ∧ ∀ z ∈ keys, cmp z x ≠ 0) := by
  rw [IsFirst, IsFirst]
  by_cases hlt : p < keys.length
  · rw [List.getElem?_append_left hlt, List.take_append_of_le_length (Nat.le_of_lt hlt)]
    constructor
    · exact .inl
    · rintro (hp | ⟨hp, -⟩)
      · exact hp
      · omega
  · have hnone : keys[p]? = none := List.getElem?_eq_none (by omega)
    simp only [hnone, reduceCtorEq, false_and, exists_false, false_or]
    by_cases hp : p = keys.length
    · subst hp
      simp
    · have : (keys ++ [x])[p]? = none := List.getElem?_eq_none (by simp; omega)
      simp [this, hp]

end First

/-! ## Runs -/

/-- the invariant of a list into which `keys` were inserted, in this order -/
structure Built (cmp : T → T → ℤ) (keys : List T) (s : SkipList T L) (lv : ℕ → List ℕ) : Prop
    extends Rep s lv, Towers s lv where
  sorted : Ascending cmp (s.elems (lv 0))
  datum : ∀ p, (∃ n ∈ lv 0, s.dataPtr n = some p) ↔ IsFirst cmp keys p
  size_eq : s.size = (lv 0).length
  dataList_eq : s.dataList = keys

section Runs

variable {cmp : T → T → ℤ} {s : SkipList T L} {lv : ℕ → List ℕ} {keys : List T} {x : T}

theorem built_empty : Built cmp [] (empty : SkipList T L) fun _ => [] where
  heads := by simp [empty]
  segs := by simp
  nodup := by simp
  disjoint := by simp
  lt_fresh := by simp
  valued := by simp
  nested := by simp
  below := by simp
  ground := by simp
  up := by simp
  down := by simp
  bounded := by simp
  sorted := List.Pairwise.nil
  datum := by simp [IsFirst]
  size_eq := rfl
  dataList_eq := rfl

theorem Built.holds (h : Built cmp keys s lv) : Holds s (s.elems (lv 0)) :=
  ⟨lv, h.toRep, rfl, h.size_eq.trans (h.elems_length 0).symm⟩

theorem Built.value_eq (h : Built cmp keys s lv) {n p : ℕ} (hn : s.dataPtr n = some p) : s.value n = keys[p]? := by
  rw [value, hn, Option.bind_some, h.dataList_eq]

/-- level 0 has an element of every class that was inserted -/
theorem Built.represented (h : Built cmp keys s lv) (hcmp : LawfulCmp cmp) {z : T} (hz : z ∈ keys) :
    ∃ y ∈ s.elems (lv 0), cmp y z = 0 := by
  obtain ⟨p, y, hfirst, hy, hyz⟩ := exists_first hcmp hz
  obtain ⟨n, hn, hptr⟩ := (h.datum p).2 hfirst
  exact ⟨y, h.value_mem hn ((h.value_eq hptr).trans hy), hyz⟩

/-- and only elements that were inserted -/
theorem Built.inserted (h : Built cmp keys s lv) {y : T} (hy : y ∈ s.elems (lv 0)) : y ∈ keys := by
  obtain ⟨n, hn, hv⟩ := List.mem_filterMap.1 hy
  obtain ⟨p, hp, hget⟩ := Option.bind_eq_some_iff.1 hv
  rw [h.dataList_eq] at hget
  exact List.mem_of_getElem? hget

/-- every level is strictly ascending -/
theorem Built.level_sorted (h : Built cmp keys s lv) (i : ℕ) : Ascending cmp (s.elems (lv i)) := by
  rw [Ascending, elems, List.pairwise_filterMap]
  exact (h.toRep.ascending h.sorted i).imp fun hnm y hy z hz => hnm y z hy hz

theorem Built.append_sorted (h : Built cmp keys s lv) (hcmp : LawfulCmp cmp) (x : T) :
    Sorted cmp (s.append x) lv :=
  ⟨h.toRep.append x, hcmp, by rw [h.toRep.append_elems x 0]; exact h.sorted⟩

/-- the elements of level `i` after an insert: a new element comes to the levels up to its height -/
def Raised (cmp : T → T → ℤ) (keys : List T) (x : T) (height : ℕ) (s s' : SkipList T L) (lv lv' : ℕ → List ℕ) : Prop :=
  ∀ i y, y ∈ s'.elems (lv' i) ↔ y ∈ s.elems (lv i) ∨ (y = x ∧ i ≤ height ∧ ∀ z ∈ keys, cmp z x ≠ 0)

theorem Grown.mem_elems {data k : ℕ} {t : SkipList T L} (hs : Sorted cmp s lv) (hdata : s.dataList[data]? = some x)
    (hg : Grown cmp s lv data x k t) {i : ℕ} {y : T} :
    y ∈ t.elems (grown cmp s lv x k i) ↔ y ∈ s.elems (lv i) ∨ (y = x ∧ i < k) := by
  have hlinked := hg.linkedAt
  simp only [elems, List.mem_filterMap, mem_grown hs]
  constructor
  · intro hy
    obtain ⟨n, hn | ⟨hi, rfl⟩, hv⟩ := hy
    · exact .inl ⟨n, hn, by rwa [← hlinked.value_old (hs.lt_fresh i n hn)]⟩
    · rw [hlinked.value_new hdata hi, Option.some.injEq] at hv
      exact .inr ⟨hv.symm, hi⟩
  · intro hy
    rcases hy with ⟨n, hn, hv⟩ | ⟨rfl, hi⟩
    · exact ⟨n, .inl hn, by rwa [hlinked.value_old (hs.lt_fresh i n hn)]⟩
    · exact ⟨s.fresh + i, .inr ⟨hi, rfl⟩, hlinked.value_new hdata hi⟩

/-- **One insert** keeps the invariant. -/
theorem Built.insert (h : Built cmp keys s lv) (hcmp : LawfulCmp cmp) (x : T) {height : ℕ} (hheight : height < L) :
    ∃ s' lv', insert cmp s x height = some s' ∧ Built cmp (keys ++ [x]) s' lv' ∧ Raised cmp keys x height s s' lv lv' := by
  have hs := h.append_sorted hcmp x
  have helems := h.toRep.append_elems x 0
  have hlen : s.dataList.length = keys.length := by rw [h.dataList_eq]
  have hlist : (s.append x).dataList = keys ++ [x] := by rw [SkipList.append, h.dataList_eq]
  cases insert_cases hs hheight with
  | inl hold =>
    obtain ⟨⟨y, hy, hyx⟩, hins⟩ := hold
    rw [helems] at hy
    refine ⟨_, lv, hins, ⟨hs.toRep, ⟨h.ground, h.up, h.down, h.bounded⟩, hs.sorted, fun p => ?_, h.size_eq, hlist⟩, ?_⟩
    · rw [isFirst_append]
      constructor
      · exact fun hp => .inl ((h.datum p).1 hp)
      · rintro (hp | ⟨-, hno⟩)
        · exact (h.datum p).2 hp
        · exact absurd hyx (hno y (h.inserted hy))
    · intro i z
      rw [h.toRep.append_elems x i, iff_self_or]
      intro hz
      exact absurd hyx (hz.2.2 y (h.inserted hy))
  | inr hnew =>
    obtain ⟨hno, t, hins, hg, ht⟩ := hnew
    have hdata : (s.append x).dataList[s.dataList.length]? = some x := by simp [SkipList.append]
    have hkey : t.grow.elems (grown cmp (s.append x) lv x (height + 1) 0) = insertKey cmp x ((s.append x).elems (lv 0)) :=
      (hg.elems_eq hs (Nat.succ_pos height) hdata hno :)
    have htow : Towers (s.append x) lv := ⟨h.ground, h.up, h.down, h.bounded⟩
    have htow' := htow.grown hs hg ht hheight
    have hclass : ∀ z ∈ keys, cmp z x ≠ 0 := by
      intro z hz hzx
      obtain ⟨y, hy, hyz⟩ := h.represented hcmp hz
      exact hno y (by rwa [helems]) (hcmp.equal_trans hyz hzx)
    refine ⟨_, _, hins, ⟨hg.toRep.grow, ⟨htow'.ground, htow'.up, htow'.down, htow'.bounded⟩, ?_, fun p => ?_, ?_, ?_⟩, ?_⟩
    · rw [hkey]
      exact insertKey_ascending hcmp hs.sorted x
    · have hold : ∀ n ∈ lv 0, t.grow.dataPtr n = s.dataPtr n := fun n hn => (hg.old n (hs.lt_fresh 0 n hn)).1
      have hadd : t.grow.dataPtr (s.fresh + 0) = some s.dataList.length := hg.new 0 (Nat.succ_pos height)
      rw [isFirst_append, ← h.datum p]
      constructor
      · rintro ⟨n, hn, hp⟩
        cases (mem_grown hs).1 hn with
        | inl hn =>
          rw [hold n hn] at hp
          exact .inl ⟨n, hn, hp⟩
        | inr hn =>
          have hn' : n = s.fresh + 0 := hn.2
          rw [hn', hadd, Option.some.injEq] at hp
          exact .inr ⟨hp ▸ hlen, hclass⟩
      · rintro (⟨n, hn, hp⟩ | ⟨hp, -⟩)
        · exact ⟨n, (mem_grown hs).2 (.inl hn), (hold n hn).trans hp⟩
        · exact ⟨s.fresh + 0, (mem_grown hs).2 (.inr ⟨Nat.succ_pos height, rfl⟩), by rw [hadd, hp, hlen]⟩
    · have hlevel := hg.toRep.grow.elems_length 0
      rw [hkey, insertKey_length hno, hs.toRep.elems_length] at hlevel
      rw [← hlevel, SkipList.grow, hg.size_eq]
      exact congrArg (· + 1) h.size_eq
    · exact hg.dataList_eq.trans hlist
    · intro i z
      rw [← h.toRep.append_elems x i]
      exact (hg.mem_elems hs hdata).trans (or_congr_right (and_congr_right fun _ =>
        Nat.lt_succ_iff.trans (and_iff_left hclass).symm))

/-- a run of inserts keeps it -/
theorem Built.run (h : Built cmp keys s lv) (hcmp : LawfulCmp cmp) (xs : List (T × ℕ)) (hheights : ∀ a ∈ xs, a.2 < L) :
    ∃ s' lv', run (step cmp) s xs = some s' ∧ Built cmp (keys ++ xs.map Prod.fst) s' lv' := by
  induction xs using List.reverseRecOn with
  | nil => exact ⟨s, lv, rfl, by simpa using h⟩
  | append_singleton xs a ih =>
    obtain ⟨s', lv', hrun, hb⟩ := ih fun b hb => hheights b (List.mem_append_left _ hb)
    obtain ⟨s'', lv'', hins, hb', -⟩ := hb.insert hcmp a.1 (hheights a (by simp))
    rw [run_snoc, hrun, List.map_append, ← List.append_assoc]
    exact ⟨s'', lv'', hins, hb'⟩

/-- **Representation.** Every run of inserts from the empty list, with any heights below `L`, is defined. Its levels are
the nodes from `nodes[i]` on, along `next`, with `prev` its inverse; level 0 is strictly ascending and has the first
element of every class; every level is nested in the one below it, by `bottom` and `top`, with the same data; the size
is the length of level 0; and the iteration from `begin()` to `end()` visits level 0. -/
theorem run_built (hcmp : LawfulCmp cmp) (xs : List (T × ℕ)) (hheights : ∀ a ∈ xs, a.2 < L) :
    ∃ s lv, run (step cmp) (empty : SkipList T L) xs = some s ∧ Built cmp (xs.map Prod.fst) s lv ∧
      (∀ i n, s.nodes i = some n → s.prev n = none) ∧
      (∀ i, ∀ n ∈ lv i, ∀ m, s.next n = some m ↔ m ∈ lv i ∧ s.prev m = some n) ∧
      (∀ i, Ascending cmp (s.elems (lv i))) ∧ toList s = some (s.elems (lv 0)) := by
  obtain ⟨s, lv, hrun, hb⟩ := (built_empty (L := L)).run hcmp xs hheights
  rw [List.nil_append] at hb
  refine ⟨s, lv, hrun, hb, fun i n hn => ?_, fun i n hn m => seg_inverse (hb.segs i) hn, hb.level_sorted,
    toList_spec hb.holds⟩
  rw [hb.heads] at hn
  obtain ⟨l, hl⟩ := List.head?_eq_some_iff.1 hn
  have hseg := hb.segs i
  rw [hl] at hseg
  exact hseg.1

theorem lawful_sub : LawfulCmp fun a b : ℤ => a - b := ⟨by omega, by omega⟩

/-- four inserts, the third one of an element that is there -/
theorem run_built_duplicate :
    ∃ s lv, run (step fun a b : ℤ => a - b) (empty : SkipList ℤ 4) [(3, 2), (1, 0), (3, 1), (2, 3)] = some s ∧
      Built (fun a b => a - b) [3, 1, 3, 2] s lv ∧ (∀ i n, s.nodes i = some n → s.prev n = none) ∧
      (∀ i, ∀ n ∈ lv i, ∀ m, s.next n = some m ↔ m ∈ lv i ∧ s.prev m = some n) ∧
      (∀ i, Ascending (fun a b => a - b) (s.elems (lv i))) ∧ toList s = some (s.elems (lv 0)) :=
  run_built lawful_sub [(3, 2), (1, 0), (3, 1), (2, 3)] (by decide)

/-- in an ascending list a scan meets only one element equal to `x` -/
theorem find?_ascending (hcmp : LawfulCmp cmp) (h : Ascending cmp keys) {y : T} (hy : y ∈ keys) (hyx : cmp y x = 0) :
    (keys.find? fun z => cmp z x = 0) = some y := by
  obtain ⟨as, bs, rfl⟩ := List.append_of_mem hy
  refine List.find?_eq_some_iff_append.2 ⟨by simpa using hyx, as, bs, rfl, fun a ha => ?_⟩
  have hay := (List.pairwise_append.1 h).2.2 a ha y List.mem_cons_self
  have := hcmp.lt_of_lt_of_equal hay hyx
  simp only [Bool.not_eq_true', decide_eq_false_iff_not]
  omega

/-- **Search agrees with a scan.** After every run of inserts, `find` is defined for every `x`: its node has the element
that a scan of the iteration finds, and it is `end()` when the scan finds none. -/
theorem run_find (hcmp : LawfulCmp cmp) (xs : List (T × ℕ)) (hheights : ∀ a ∈ xs, a.2 < L) (x : T) :
    ∃ s keys r, run (step cmp) (empty : SkipList T L) xs = some s ∧ toList s = some keys ∧ find cmp s x = some r ∧
      (∀ n, r = some n → ∃ y, s.value n = some y ∧ cmp y x = 0 ∧ keys.find? (fun z => cmp z x = 0) = some y) ∧
      (r = none → keys.find? (fun z => cmp z x = 0) = none) := by
  obtain ⟨s, lv, hrun, hb⟩ := (built_empty (L := L)).run hcmp xs hheights
  obtain ⟨r, hr, hsome, hnone⟩ := find_spec hcmp hb.holds hb.sorted x
  refine ⟨s, _, r, hrun, toList_spec hb.holds, hr, fun n hn => ?_, fun hn => ?_⟩
  · obtain ⟨y, hy, hv, hyx⟩ := hsome n hn
    exact ⟨y, hv, hyx, find?_ascending hcmp hb.sorted hy hyx⟩
  · exact List.find?_eq_none.2 fun y hy => by simpa using hnone hn y hy

/-- the probe is above every level's first element but one -/
theorem run_find_middle :
    ∃ s keys r, run (step fun a b : ℤ => a - b) (empty : SkipList ℤ 4) [(3, 2), (1, 0), (2, 3)] = some s ∧
      toList s = some keys ∧ find (fun a b => a - b) s 2 = some r ∧
      (∀ n, r = some n → ∃ y, s.value n = some y ∧ y - 2 = 0 ∧ keys.find? (fun z => z - 2 = 0) = some y) ∧
      (r = none → keys.find? (fun z => z - 2 = 0) = none) :=
  run_find lawful_sub [(3, 2), (1, 0), (2, 3)] (by decide) 2

end Runs

end K23Search.SkipList
