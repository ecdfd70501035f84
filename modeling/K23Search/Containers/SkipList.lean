/-
`qs::skip_list` (include/qs/skip_list.hpp), with its node links: one field function for each of `next`, `prev`, `top`,
`bottom` and `data_ptr`, from node addresses. `data_list` only ever grows at its end, so its nodes are the positions of
a list. The outcome of `random_level` is an argument of `insert`. A read that the source leaves undefined (a null
`data_ptr` apart, for which it has a branch) and a loop that does not end are `none`.

`Rep s lv` says that the links of `s` are those of the node lists `lv`, level by level, and that the levels are nested
through `bottom`. It does not mention the comparison.

Results, for a comparison that is a total preorder (`LawfulCmp`) and a list that is strictly ascending in it:
- `find_spec`: `find` is defined, and finds an equal element exactly when there is one;
- `insert_spec`: `insert` is defined for every height, adds the element in its place if it is new and changes nothing
  else;
- `toList_spec`: the iteration from `begin()` to `end()` is level 0.
-/
import K23Search.Lib.DoublyLinked
import Mathlib.Data.List.Pairwise
import Mathlib.Data.List.Perm.Subperm
import Mathlib.Data.Int.Notation
import Mathlib.Logic.Function.Basic

namespace K23Search

open K23Search.Lib

/-! ## Model -/

structure SkipList (T : Type) (L : ℕ) where
  size : ℕ
  /-- the first node of each level -/
  nodes : ℕ → Option ℕ
  next : ℕ → Option ℕ
  prev : ℕ → Option ℕ
  top : ℕ → Option ℕ
  bottom : ℕ → Option ℕ
  /-- a position of `dataList` -/
  dataPtr : ℕ → Option ℕ
  dataList : List T
  /-- the address of the next node to be allocated -/
  fresh : ℕ

namespace SkipList

variable {T : Type} {L : ℕ}

def empty : SkipList T L :=
  ⟨0, fun _ => none, fun _ => none, fun _ => none, fun _ => none, fun _ => none, fun _ => none, [], 0⟩

/-- `++size` -/
def grow (s : SkipList T L) : SkipList T L := { s with size := s.size + 1 }

/-- `data_list.append(x)` -/
def append (s : SkipList T L) (x : T) : SkipList T L := { s with dataList := s.dataList ++ [x] }

/-- `n->data_ptr->get()` -/
def value (s : SkipList T L) (n : ℕ) : Option T := (s.dataPtr n).bind fun p => s.dataList[p]?

def cmpNode (cmp : T → T → ℤ) (s : SkipList T L) (n : ℕ) (x : T) : Option ℤ :=
  match s.dataPtr n with
  | none => some 1
  | some p => s.dataList[p]?.map fun y => cmp y x

/-- how the loop over one level is left -/
inductive Scan where
  /-- `n` is null -/
  | off
  /-- at an equal element -/
  | found (n : ℕ)
  /-- at a greater element -/
  | before (n : ℕ)
  /-- at a smaller element that is the last of the level -/
  | last (n : ℕ)

/-- the loop that `insert_node` runs on every level, and `find_node` on every level but 0 -/
def scan (cmp : T → T → ℤ) (s : SkipList T L) (x : T) : ℕ → Option ℕ → Option Scan
  | _, none => some .off
  | 0, some _ => none
  | fuel + 1, some n => (cmpNode cmp s n x).bind fun c =>
    if c = 0 then some (.found n)
    else if 0 < c then some (.before n)
    else if s.next n = none then some (.last n)
    else scan cmp s x fuel (s.next n)

/-- the loop of `find_node` on level 0, which looks for an equal element only -/
def scanEqual (cmp : T → T → ℤ) (s : SkipList T L) (x : T) : ℕ → Option ℕ → Option (Option ℕ)
  | _, none => some none
  | 0, some _ => none
  | fuel + 1, some n => (cmpNode cmp s n x).bind fun c =>
    if c = 0 then some (some n) else scanEqual cmp s x fuel (s.next n)

/-- where the next level starts, below `p` or at its head -/
def descend (s : SkipList T L) (level : ℕ) (p : Option ℕ) : Option ℕ :=
  match p with
  | none => s.nodes level
  | some p => s.bottom p

/-- `find_node(data, start, level)` -/
def findNode (cmp : T → T → ℤ) (s : SkipList T L) (x : T) : ℕ → Option ℕ → Option (Option ℕ)
  | 0, start => scanEqual cmp s x s.fresh start
  | level + 1, none => findNode cmp s x level (s.nodes level)
  | level + 1, some start => (scan cmp s x s.fresh (some start)).bind fun
    | .off => some none
    | .found n => some (some n)
    | .before n => findNode cmp s x level (s.descend level (s.prev n))
    | .last n => findNode cmp s x level (s.bottom n)

/-- `find`: the iterator, null for `end()` -/
def find (cmp : T → T → ℤ) (s : SkipList T L) (x : T) : Option (Option ℕ) :=
  findNode cmp s x (L - 1) (s.nodes (L - 1))

/-- one turn of the loop of `insert_with_path`: a new node on level `i` after `path`, above `bottom` -/
def linkLevel (s : SkipList T L) (data : ℕ) (path : Option ℕ) (i : ℕ) (bottom : Option ℕ) : SkipList T L :=
  let n := s.fresh
  let prev := Function.update s.prev n path
  { s with
    fresh := n + 1
    dataPtr := Function.update s.dataPtr n (some data)
    nodes := match path with
      | none => Function.update s.nodes i (some n)
      | some _ => s.nodes
    next := match path with
      | none => Function.update s.next n (s.nodes i)
      | some p => Function.update (Function.update s.next n (s.next p)) p (some n)
    prev := match path with
      | none => match s.nodes i with
        | none => prev
        | some h => Function.update prev h (some n)
      | some p => match s.next p with
        | none => prev
        | some q => Function.update prev q (some n)
    bottom := Function.update s.bottom n bottom
    top := match bottom with
      | none => Function.update s.top n none
      | some b => Function.update (Function.update s.top n none) b (some n) }

/-- an entry that was never written is `none` -/
abbrev Path := ℕ → Option (Option ℕ)

/-- the loop of `insert_with_path`, for `levels` levels: the list and the last node made -/
def linkLevels (s : SkipList T L) (data : ℕ) (path : Path) : ℕ → Option (SkipList T L × Option ℕ)
  | 0 => some (s, none)
  | i + 1 => (linkLevels s data path i).bind fun (s, bottom) =>
    (path i).map fun p => (linkLevel s data p i bottom, some s.fresh)

def insertWithPath (s : SkipList T L) (data : ℕ) (path : Path) (height : ℕ) : Option (SkipList T L) :=
  (linkLevels s data path (height + 1)).map fun (s, _) => s.grow

/-- `insert_node(data, descent_path, start_node, level)`, `x` being `data->get()` -/
def insertNode (cmp : T → T → ℤ) (s : SkipList T L) (data : ℕ) (x : T) (height : ℕ) :
    ℕ → Path → Option ℕ → Option (SkipList T L)
  | 0, path, start => (scan cmp s x s.fresh start).bind fun
    | .off => some s
    | .found _ => some s
    | .before n => insertWithPath s data (Function.update path 0 (some (s.prev n))) height
    | .last n => insertWithPath s data (Function.update path 0 (some (some n))) height
  | level + 1, path, none =>
    insertNode cmp s data x height level (Function.update path (level + 1) (some none)) (s.nodes level)
  | level + 1, path, some start => (scan cmp s x s.fresh (some start)).bind fun
    | .off => some s
    | .found _ => some s
    | .before n => insertNode cmp s data x height level (Function.update path (level + 1) (some (s.prev n)))
        (s.descend level (s.prev n))
    | .last n => insertNode cmp s data x height level (Function.update path (level + 1) (some (some n))) (s.bottom n)

/-- the loop of `insert` into an empty list, for `levels` levels -/
def firstLevels (s : SkipList T L) (data : ℕ) : ℕ → SkipList T L
  | 0 => s
  | i + 1 =>
    let s := firstLevels s data i
    let n := s.fresh
    let bottom := if i = 0 then none else s.nodes (i - 1)
    { s with
      fresh := n + 1
      dataPtr := Function.update s.dataPtr n (some data)
      nodes := Function.update s.nodes i (some n)
      next := Function.update s.next n none
      prev := Function.update s.prev n none
      bottom := Function.update s.bottom n bottom
      top := match bottom with
        | none => Function.update s.top n none
        | some b => Function.update (Function.update s.top n none) b (some n) }

/-- `insert`, with the outcome of `random_level` -/
def insert (cmp : T → T → ℤ) (s : SkipList T L) (x : T) (height : ℕ) : Option (SkipList T L) :=
  let data := s.dataList.length
  let s := s.append x
  if s.nodes 0 = none then some (firstLevels s data (height + 1)).grow
  else insertNode cmp s data x height (L - 1) (fun _ => none) (s.nodes (L - 1))

/-- the elements from a node on, along `next` -/
def walk (s : SkipList T L) : ℕ → Option ℕ → Option (List T)
  | _, none => some []
  | 0, some _ => none
  | fuel + 1, some n => (s.value n).bind fun x => (walk s fuel (s.next n)).map (x :: ·)

/-- what the loop from `begin()` to `end()` visits, in a list whose `size` was set by its constructor: it is the number
of nodes on level 0, of which a memory holds fewer than 2^64. (`SkipListCopy` has the lists whose `size` was not set,
with a `begin()` that reads it as the `std::size_t` it is.) -/
def toList (s : SkipList T L) : Option (List T) := walk s s.fresh (if s.size = 0 then none else s.nodes 0)

/-! ## Representation -/

/-- the links of `s` are those of the levels `lv`, and every level is nested in the one below through `bottom` -/
structure Rep (s : SkipList T L) (lv : ℕ → List ℕ) : Prop where
  heads : ∀ i, s.nodes i = (lv i).head?
  segs : ∀ i, Seg s.next s.prev none (lv i) none
  nodup : ∀ i, (lv i).Nodup
  disjoint : ∀ i j, i ≠ j → ∀ n ∈ lv i, n ∉ lv j
  lt_fresh : ∀ i, ∀ n ∈ lv i, n < s.fresh
  valued : ∀ i, ∀ n ∈ lv i, ∃ x, s.value n = some x
  nested : ∀ i, ((lv (i + 1)).map s.bottom).Sublist ((lv i).map some)
  below : ∀ i, ∀ n ∈ lv (i + 1), ∀ b, s.bottom n = some b → s.dataPtr b = s.dataPtr n

/-- the elements of the nodes `l` -/
def elems (s : SkipList T L) (l : List ℕ) : List T := l.filterMap s.value

/-- `s` is a well-formed skip list whose level 0 has the elements `keys` -/
def Holds (s : SkipList T L) (keys : List T) : Prop :=
  ∃ lv, Rep s lv ∧ s.elems (lv 0) = keys ∧ s.size = keys.length

theorem holds_empty : Holds (empty : SkipList T L) [] :=
  ⟨fun _ => [], ⟨by simp [empty], by simp, by simp, by simp, by simp, by simp, by simp, by simp⟩, rfl, rfl⟩

theorem Rep.elems_length {s : SkipList T L} {lv : ℕ → List ℕ} (h : Rep s lv) (i : ℕ) :
    (s.elems (lv i)).length = (lv i).length := by
  rw [elems, List.filterMap_length_eq_length]
  intro n hn
  obtain ⟨x, hx⟩ := h.valued i n hn
  simp [hx]

theorem Rep.length_le {s : SkipList T L} {lv : ℕ → List ℕ} (h : Rep s lv) (i : ℕ) : (lv i).length ≤ s.fresh := by
  have hsub : lv i ⊆ List.range s.fresh := fun n hn => List.mem_range.2 (h.lt_fresh i n hn)
  simpa using ((h.nodup i).subperm hsub).length_le

/-- the node below a node of an upper level is one of the next level, with the same element -/
theorem Rep.bottom_mem {s : SkipList T L} {lv : ℕ → List ℕ} (h : Rep s lv) {i n : ℕ} (hn : n ∈ lv (i + 1)) :
    ∃ b ∈ lv i, s.bottom n = some b ∧ s.value b = s.value n := by
  have hmem : s.bottom n ∈ (lv i).map some := (h.nested i).subset (List.mem_map_of_mem hn)
  obtain ⟨b, hb, hbn⟩ := List.mem_map.1 hmem
  exact ⟨b, hb, hbn.symm, by rw [value, value, h.below i n hn b hbn.symm]⟩

theorem Rep.empty_above {s : SkipList T L} {lv : ℕ → List ℕ} (h : Rep s lv) {i : ℕ} (hi : lv i = []) :
    lv (i + 1) = [] := by
  have := (h.nested i).length_le
  rw [hi] at this
  simpa using this

theorem Rep.all_empty {s : SkipList T L} {lv : ℕ → List ℕ} (h : Rep s lv) (h0 : lv 0 = []) (i : ℕ) : lv i = [] := by
  induction i with
  | zero => exact h0
  | succ i ih => exact h.empty_above ih

/-! ## Order -/

/-- the comparison is a total preorder -/
structure LawfulCmp (cmp : T → T → ℤ) : Prop where
  swap : ∀ a b, cmp a b < 0 ↔ 0 < cmp b a
  trans : ∀ a b c, cmp a b ≤ 0 → cmp b c ≤ 0 → cmp a c ≤ 0

section Order

variable {cmp : T → T → ℤ}

theorem LawfulCmp.lt_trans (h : LawfulCmp cmp) {a b c : T} (hab : cmp a b < 0) (hbc : cmp b c < 0) : cmp a c < 0 := by
  by_contra hac
  have hca : cmp c a ≤ 0 := by
    by_contra hca
    exact hac ((h.swap a c).2 (by omega))
  have hba := h.trans b c a (by omega) hca
  have := (h.swap a b).1 hab
  omega

/-- strictly ascending -/
def Ascending (cmp : T → T → ℤ) (keys : List T) : Prop := keys.Pairwise fun a b => cmp a b < 0

/-- the node's element is smaller than `x` -/
def isBelow (cmp : T → T → ℤ) (s : SkipList T L) (x : T) (n : ℕ) : Bool := (s.value n).any fun y => cmp y x < 0

/-- the node's element is equal to `x` -/
def isEqual (cmp : T → T → ℤ) (s : SkipList T L) (x : T) (n : ℕ) : Bool := (s.value n).any fun y => cmp y x = 0

/-- what `x` finds before it on a level -/
def left (cmp : T → T → ℤ) (s : SkipList T L) (x : T) (l : List ℕ) : List ℕ := l.filter (s.isBelow cmp x)

/-- and what it finds at and after it -/
def right (cmp : T → T → ℤ) (s : SkipList T L) (x : T) (l : List ℕ) : List ℕ := l.filter fun n => !s.isBelow cmp x n

variable {s : SkipList T L} {lv : ℕ → List ℕ} {x : T} {n : ℕ}

theorem cmpNode_eq {y : T} (h : s.value n = some y) : cmpNode cmp s n x = some (cmp y x) := by
  rw [value] at h
  obtain ⟨p, hp, hy⟩ := Option.bind_eq_some_iff.1 h
  simp [cmpNode, hp, hy]

/-- every level is ascending when level 0 is -/
theorem Rep.ascending (h : Rep s lv) (hasc : Ascending cmp (s.elems (lv 0))) (i : ℕ) :
    (lv i).Pairwise fun n m => ∀ y z, s.value n = some y → s.value m = some z → cmp y z < 0 := by
  induction i with
  | zero =>
    rw [Ascending, elems, List.pairwise_filterMap] at hasc
    exact hasc.imp fun h y z hy hz => h y hy z hz
  | succ i ih =>
    have hup : ((lv i).map some).Pairwise fun o o' => ∀ n m, o = some n → o' = some m →
        ∀ y z, s.value n = some y → s.value m = some z → cmp y z < 0 := by
      rw [List.pairwise_map]
      exact ih.imp fun h n m hn hm => by cases hn; cases hm; exact h
    have hdown := hup.sublist (h.nested i)
    rw [List.pairwise_map] at hdown
    refine hdown.imp_of_mem fun {n m} hn hm hnm y z hy hz => ?_
    obtain ⟨b, -, hb, hbv⟩ := h.bottom_mem hn
    obtain ⟨c, -, hc, hcv⟩ := h.bottom_mem hm
    exact hnm b c hb hc y z (hbv.trans hy) (hcv.trans hz)

theorem filter_append_filter_not {α : Type} {p : α → Bool} {l : List α} (h : l.Pairwise fun a b => p b → p a) :
    l.filter p ++ l.filter (fun a => !p a) = l := by
  induction l with
  | nil => rfl
  | cons a l ih =>
    obtain ⟨ha, hl⟩ := List.pairwise_cons.1 h
    by_cases hpa : p a = true
    · rw [List.filter_cons_of_pos hpa, List.filter_cons_of_neg (by simp [hpa]), List.cons_append, ih hl]
    · have hnone : l.filter p = [] := List.filter_eq_nil_iff.2 fun b hb hpb => hpa (ha b hb hpb)
      have hall : l.filter (fun a => !p a) = l :=
        List.filter_eq_self.2 fun b hb => by simpa using fun hpb => hpa (ha b hb hpb)
      rw [List.filter_cons_of_neg hpa, List.filter_cons_of_pos (by simp [hpa]), hnone, hall, List.nil_append]

/-- an ascending level is what is before `x` and then the rest -/
theorem Rep.split (h : Rep s lv) (hcmp : LawfulCmp cmp) (hasc : Ascending cmp (s.elems (lv 0))) (x : T) (i : ℕ) :
    lv i = s.left cmp x (lv i) ++ s.right cmp x (lv i) := by
  refine (filter_append_filter_not ((h.ascending hasc i).imp_of_mem fun {n m} hn hm hnm hm' => ?_)).symm
  obtain ⟨y, hy⟩ := h.valued i n hn
  obtain ⟨z, hz⟩ := h.valued i m hm
  simp only [isBelow, hy, hz, Option.any_some, decide_eq_true_eq] at hm' ⊢
  exact hcmp.lt_trans (hnm y z hy hz) hm'

theorem mem_left {l : List ℕ} : n ∈ s.left cmp x l ↔ n ∈ l ∧ s.isBelow cmp x n = true := List.mem_filter

theorem mem_right {l : List ℕ} : n ∈ s.right cmp x l ↔ n ∈ l ∧ s.isBelow cmp x n = false := by
  rw [right, List.mem_filter]
  simp

/-- the part of a level that a test of the elements selects is nested in that part of the level below it -/
theorem Rep.filter_nested (h : Rep s lv) (i : ℕ) {p : ℕ → Bool}
    (hp : ∀ n b, s.value b = s.value n → p b = p n) :
    (((lv (i + 1)).filter p).map s.bottom).Sublist (((lv i).filter p).map some) := by
  have hsub := (h.nested i).filter fun o => o.any p
  rw [List.filter_map, List.filter_map] at hsub
  have hup : (lv (i + 1)).filter ((fun o => Option.any p o) ∘ s.bottom) = (lv (i + 1)).filter p := by
    apply List.filter_congr
    intro n hn
    obtain ⟨b, -, hb, hv⟩ := h.bottom_mem hn
    calc
      Option.any p (s.bottom n) = p b := by rw [hb, Option.any_some]
      _ = p n := hp n b hv
  rw [hup] at hsub
  exact hsub

/-- what is before `x` on a level is nested in what is before `x` below it -/
theorem Rep.left_nested (h : Rep s lv) (x : T) (i : ℕ) :
    ((s.left cmp x (lv (i + 1))).map s.bottom).Sublist ((s.left cmp x (lv i)).map some) := by
  apply h.filter_nested
  intro n b hv
  rw [isBelow, isBelow, hv]

theorem Rep.right_nested (h : Rep s lv) (x : T) (i : ℕ) :
    ((s.right cmp x (lv (i + 1))).map s.bottom).Sublist ((s.right cmp x (lv i)).map some) := by
  apply h.filter_nested
  intro n b hv
  rw [isBelow, isBelow, hv]

/-! ## Search -/

/-- how the loop over a level leaves it: at the first element that is not smaller, or at the last one -/
def outcome (cmp : T → T → ℤ) (s : SkipList T L) (x : T) (as : List ℕ) : List ℕ → Scan
  | [] => as.getLast?.elim .off .last
  | n :: _ => if s.isEqual cmp x n then .found n else .before n

theorem scan_spec {as bs : List ℕ} {b : Option ℕ} (hseg : Seg s.next s.prev b (as ++ bs) none)
    (hval : ∀ n ∈ as ++ bs, ∃ y, s.value n = some y) (has : ∀ n ∈ as, s.isBelow cmp x n = true)
    (hbs : ∀ n, bs.head? = some n → s.isBelow cmp x n = false) {fuel : ℕ} (hfuel : (as ++ bs).length ≤ fuel) :
    scan cmp s x fuel (as ++ bs).head? = some (outcome cmp s x as bs) := by
  induction as generalizing b fuel with
  | nil =>
    cases bs with
    | nil => cases fuel <;> rfl
    | cons n bs =>
      obtain ⟨fuel, rfl⟩ : ∃ m, fuel = m + 1 := ⟨fuel - 1, by simp at hfuel; omega⟩
      obtain ⟨y, hy⟩ := hval n (by simp)
      have hge := hbs n rfl
      simp only [isBelow, hy, Option.any_some, decide_eq_false_iff_not] at hge
      simp only [List.nil_append, List.head?_cons, scan, cmpNode_eq hy, Option.bind_some, outcome, isEqual, hy,
        Option.any_some, decide_eq_true_eq]
      by_cases hz : cmp y x = 0
      · rw [if_pos hz, if_pos hz]
      · rw [if_neg hz, if_neg hz, if_pos (by omega)]
  | cons a as ih =>
    obtain ⟨fuel, rfl⟩ : ∃ m, fuel = m + 1 := ⟨fuel - 1, by simp at hfuel; omega⟩
    obtain ⟨y, hy⟩ := hval a (by simp)
    have hlt := has a (by simp)
    simp only [isBelow, hy, Option.any_some, decide_eq_true_eq] at hlt
    rw [List.cons_append] at hseg
    obtain ⟨-, hnext, hseg⟩ := hseg
    rw [Option.or_none] at hnext
    simp only [List.cons_append, List.head?_cons, scan, cmpNode_eq hy, Option.bind_some]
    rw [if_neg (by omega), if_neg (by omega), hnext]
    by_cases hend : as ++ bs = []
    · obtain ⟨rfl, rfl⟩ := List.append_eq_nil_iff.1 hend
      simp [outcome]
    · have hhead : (as ++ bs).head? ≠ none := by simpa [List.head?_eq_none_iff] using hend
      rw [if_neg hhead, ih hseg (fun m hm => hval m (by simp only [List.cons_append, List.mem_cons]; exact .inr hm))
        (fun m hm => has m (List.mem_cons_of_mem _ hm)) (by simpa using hfuel)]
      cases bs with
      | cons m bs => rfl
      | nil =>
        cases as with
        | nil => simp at hend
        | cons c as => simp [outcome, List.getLast?_cons_cons]

/-- `start` is on level `i`, not after the place of `x` -/
def Entry (cmp : T → T → ℤ) (s : SkipList T L) (lv : ℕ → List ℕ) (x : T) (i : ℕ) (start : Option ℕ) : Prop :=
  ∃ as₁ as₂, s.left cmp x (lv i) = as₁ ++ as₂ ∧ start = (as₂ ++ s.right cmp x (lv i)).head? ∧
    (as₂ ++ s.right cmp x (lv i) = [] → as₁ = [])

/-- an ascending skip list -/
structure Sorted (cmp : T → T → ℤ) (s : SkipList T L) (lv : ℕ → List ℕ) : Prop extends Rep s lv where
  lawful : LawfulCmp cmp
  sorted : Ascending cmp (s.elems (lv 0))

theorem Sorted.eq_split (h : Sorted cmp s lv) (x : T) (i : ℕ) : lv i = s.left cmp x (lv i) ++ s.right cmp x (lv i) :=
  h.toRep.split h.lawful h.sorted x i

theorem entry_head (h : Sorted cmp s lv) (x : T) (i : ℕ) : Entry cmp s lv x i (s.nodes i) :=
  ⟨[], s.left cmp x (lv i), rfl, by rw [← h.eq_split x i, h.heads], fun _ => rfl⟩

theorem entry_descend (h : Sorted cmp s lv) (x : T) (i : ℕ) :
    Entry cmp s lv x i (s.descend i (s.left cmp x (lv (i + 1))).getLast?) := by
  cases hp : (s.left cmp x (lv (i + 1))).getLast? with
  | none => exact entry_head h x i
  | some p =>
    obtain ⟨hup, hlt⟩ := mem_left.1 (List.mem_of_getLast? hp)
    obtain ⟨b, hb, hbot, hv⟩ := h.bottom_mem hup
    have hbl : b ∈ s.left cmp x (lv i) := mem_left.2 ⟨hb, by rwa [isBelow, hv]⟩
    obtain ⟨as₁, as₂, has⟩ := List.append_of_mem hbl
    exact ⟨as₁, b :: as₂, has, by simpa [descend] using hbot, by simp⟩

/-- a scan of level `i` is left where `x` belongs, wherever it enters -/
theorem scan_level (h : Sorted cmp s lv) {i : ℕ} {start : Option ℕ} (he : Entry cmp s lv x i start) :
    scan cmp s x s.fresh start = some (outcome cmp s x (s.left cmp x (lv i)) (s.right cmp x (lv i))) := by
  obtain ⟨as₁, as₂, has, rfl, hnil⟩ := he
  have hsplit := h.eq_split x i
  have hseg := h.segs i
  rw [hsplit, has, List.append_assoc, seg_append] at hseg
  have hlen := h.length_le i
  rw [hsplit, has] at hlen
  have hmem : ∀ n ∈ as₂ ++ s.right cmp x (lv i), n ∈ lv i := by
    intro n hn
    rw [hsplit, has, List.append_assoc]
    exact List.mem_append_right _ hn
  rw [scan_spec hseg.2 (fun n hn => h.valued i n (hmem n hn))
    (fun n hn => (mem_left.1 (has.symm ▸ List.mem_append_right as₁ hn)).2)
    (fun n hn => (mem_right.1 (List.mem_of_mem_head? hn)).2)
    (by simp only [List.length_append] at hlen ⊢; omega), has]
  cases hr : s.right cmp x (lv i) with
  | cons n bs => rfl
  | nil =>
    cases as₂ with
    | nil => rw [hnil (by rw [hr]; rfl)]; rfl
    | cons a as₂ => simp [outcome, List.getLast?_cons]

theorem prev_right (h : Sorted cmp s lv) {i : ℕ} {bs : List ℕ} (hr : s.right cmp x (lv i) = n :: bs) :
    s.prev n = (s.left cmp x (lv i)).getLast? := by
  have hseg := h.segs i
  rw [h.eq_split x i, hr] at hseg
  simpa using (seg_at hseg).1

theorem isEqual_right {i : ℕ} (hn : n ∈ lv i) (he : s.isEqual cmp x n = true) : n ∈ s.right cmp x (lv i) := by
  refine mem_right.2 ⟨hn, ?_⟩
  cases hv : s.value n with
  | none => simp [isBelow, hv]
  | some y =>
    simp only [isEqual, isBelow, hv, Option.any_some, decide_eq_true_eq, decide_eq_false_iff_not] at he ⊢
    omega

theorem Rep.value_mem (h : Rep s lv) {i : ℕ} (hn : n ∈ lv i) {y : T} (hy : s.value n = some y) :
    y ∈ s.elems (lv 0) := by
  induction i generalizing n with
  | zero => exact List.mem_filterMap.2 ⟨n, hn, hy⟩
  | succ i ih =>
    obtain ⟨b, hb, -, hv⟩ := h.bottom_mem hn
    exact ih hb (hv.trans hy)

theorem scanEqual_spec (cmp : T → T → ℤ) (x : T) {l : List ℕ} {b : Option ℕ} (hseg : Seg s.next s.prev b l none)
    (hval : ∀ n ∈ l, ∃ y, s.value n = some y) {fuel : ℕ} (hfuel : l.length ≤ fuel) :
    ∃ r, scanEqual cmp s x fuel l.head? = some r ∧ (∀ n, r = some n → n ∈ l ∧ s.isEqual cmp x n = true) ∧
      (r = none → ∀ n ∈ l, s.isEqual cmp x n = false) := by
  induction l generalizing b fuel with
  | nil => exact ⟨none, by cases fuel <;> rfl, by simp, by simp⟩
  | cons a l ih =>
    obtain ⟨fuel, rfl⟩ : ∃ m, fuel = m + 1 := ⟨fuel - 1, by simp at hfuel; omega⟩
    obtain ⟨y, hy⟩ := hval a (by simp)
    obtain ⟨-, hnext, hseg⟩ := hseg
    rw [Option.or_none] at hnext
    simp only [List.head?_cons, scanEqual, cmpNode_eq hy, Option.bind_some, hnext]
    by_cases hz : cmp y x = 0
    · exact ⟨some a, if_pos hz, by simp [isEqual, hy, hz], by simp⟩
    · obtain ⟨r, hr, hsome, hnone⟩ := ih hseg (fun m hm => hval m (List.mem_cons_of_mem _ hm)) (by simpa using hfuel)
      refine ⟨r, by rw [if_neg hz, hr], fun n hn => ?_, fun hn m hm => ?_⟩
      · exact ⟨List.mem_cons_of_mem _ (hsome n hn).1, (hsome n hn).2⟩
      · cases hm with
        | head => simp [isEqual, hy, hz]
        | tail _ hm => exact hnone hn m hm

/-- an element equal to `x` is the first one that is not smaller -/
theorem head_equal (hs : Sorted cmp s lv) {i n e : ℕ} {bs : List ℕ} (hr : s.right cmp x (lv i) = n :: bs)
    (he : e ∈ lv i) (heq : s.isEqual cmp x e = true) : s.isEqual cmp x n = true := by
  have her : e ∈ n :: bs := hr ▸ isEqual_right he heq
  cases her with
  | head => exact heq
  | tail _ heb =>
    have hn := mem_right.1 (hr ▸ List.mem_cons_self : n ∈ s.right cmp x (lv i))
    have hpair := hs.toRep.ascending hs.sorted i
    rw [hs.eq_split x i, hr] at hpair
    obtain ⟨y, hy⟩ := hs.valued i n hn.1
    obtain ⟨z, hz⟩ := hs.valued i e he
    have hyz := (List.pairwise_cons.1 (List.pairwise_append.1 hpair).2.1).1 e heb y z hy hz
    have hnb := hn.2
    simp only [isEqual, isBelow, hy, hz, Option.any_some, decide_eq_true_eq, decide_eq_false_iff_not] at heq hnb ⊢
    -- `y < z = x` would put `y` before `x`
    have hxz := hs.lawful.trans y z x (by omega) (by omega)
    omega

/-- no element of level `i` is equal to `x` when the first one that is not smaller is not -/
theorem none_equal (hs : Sorted cmp s lv) {i : ℕ} (hno : ∀ n, (s.right cmp x (lv i)).head? = some n →
    s.isEqual cmp x n = false) : ∀ m ∈ lv i, s.isEqual cmp x m = false := by
  intro m hm
  by_contra heq
  rw [Bool.not_eq_false] at heq
  cases hr : s.right cmp x (lv i) with
  | nil =>
    have := isEqual_right hm heq
    rw [hr] at this
    cases this
  | cons n bs =>
    have := hno n (by rw [hr]; rfl)
    rw [head_equal hs hr hm heq] at this
    cases this

/-- the node is the highest of its tower, on level `j` of the levels up to `i` -/
def Topmost (cmp : T → T → ℤ) (s : SkipList T L) (lv : ℕ → List ℕ) (x : T) (i j n : ℕ) : Prop :=
  j ≤ i ∧ n ∈ lv j ∧ ∀ k, j < k → k ≤ i → ∀ m ∈ lv k, s.isEqual cmp x m = false

theorem Topmost.succ {i j : ℕ} (h : Topmost cmp s lv x i j n) (hno : ∀ m ∈ lv (i + 1), s.isEqual cmp x m = false) :
    Topmost cmp s lv x (i + 1) j n := by
  obtain ⟨hji, hn, habove⟩ := h
  refine ⟨Nat.le_succ_of_le hji, hn, ?_⟩
  intro k hjk hki
  by_cases hk : k = i + 1
  · subst hk
    exact hno
  · exact habove k hjk (by omega)

/-- the search stops at the highest node that is equal to `x` -/
theorem findNode_spec (h : Sorted cmp s lv) {i : ℕ} {start : Option ℕ} (he : Entry cmp s lv x i start) :
    ∃ r, findNode cmp s x i start = some r ∧
      (∀ n, r = some n → (∃ j, Topmost cmp s lv x i j n) ∧ s.isEqual cmp x n = true) ∧
      (r = none → ∀ n ∈ lv 0, s.isEqual cmp x n = false) := by
  induction i generalizing start with
  | zero =>
    obtain ⟨as₁, as₂, has, rfl, -⟩ := he
    have hsplit := h.eq_split x 0
    rw [has, List.append_assoc] at hsplit
    have hseg := h.segs 0
    have hlen := h.length_le 0
    rw [hsplit, seg_append] at hseg
    rw [hsplit, List.length_append] at hlen
    have hsub : ∀ n ∈ as₂ ++ s.right cmp x (lv 0), n ∈ lv 0 := by
      intro n hn
      rw [hsplit]
      exact List.mem_append_right _ hn
    obtain ⟨r, hr, hsome, hnone⟩ := scanEqual_spec cmp x hseg.2
      (fun n hn => h.valued 0 n (hsub n hn)) (by omega : _ ≤ s.fresh)
    refine ⟨r, hr, fun n hn => ⟨⟨0, Nat.le_refl 0, hsub n (hsome n hn).1, ?_⟩, (hsome n hn).2⟩, fun hn n hmem => ?_⟩
    · intro k hk hk0
      omega
    · by_contra heq
      rw [Bool.not_eq_false] at heq
      have := hnone hn n (List.mem_append_right _ (isEqual_right hmem heq))
      rw [heq] at this
      cases this
  | succ i ih =>
    -- a level without an equal element is passed over
    have hlift : ∀ {start : Option ℕ}, Entry cmp s lv x i start → (∀ m ∈ lv (i + 1), s.isEqual cmp x m = false) →
        ∃ r, findNode cmp s x i start = some r ∧
          (∀ n, r = some n → (∃ j, Topmost cmp s lv x (i + 1) j n) ∧ s.isEqual cmp x n = true) ∧
          (r = none → ∀ n ∈ lv 0, s.isEqual cmp x n = false) := by
      intro start hentry hno
      obtain ⟨r, hr, hsome, hnone⟩ := ih hentry
      refine ⟨r, hr, fun n hn => ?_, hnone⟩
      obtain ⟨⟨j, htop⟩, heq⟩ := hsome n hn
      exact ⟨⟨j, htop.succ hno⟩, heq⟩
    cases start with
    | none =>
      obtain ⟨as₁, as₂, has, hstart, -⟩ := he
      have hend := List.head?_eq_none_iff.1 hstart.symm
      refine hlift (entry_head h x i) (none_equal h fun n hn => ?_)
      rw [(List.append_eq_nil_iff.1 hend).2] at hn
      cases hn
    | some start =>
      simp only [findNode, scan_level h he, Option.bind_some]
      have hdown := entry_descend h x i
      cases hr : s.right cmp x (lv (i + 1)) with
      | nil =>
        have hno : ∀ m ∈ lv (i + 1), s.isEqual cmp x m = false := none_equal h fun n hn => by rw [hr] at hn; cases hn
        obtain ⟨as₁, as₂, has, hstart, -⟩ := he
        cases hl : (s.left cmp x (lv (i + 1))).getLast? with
        | none =>
          rw [List.getLast?_eq_none_iff] at hl
          rw [hl] at has
          rw [hr, (List.append_eq_nil_iff.1 has.symm).2] at hstart
          cases hstart
        | some n =>
          rw [hl] at hdown
          simp only [outcome, hl, Option.elim_some]
          exact hlift hdown hno
      | cons n bs =>
        have hn : n ∈ lv (i + 1) := (mem_right.1 (by rw [hr]; exact List.mem_cons_self : n ∈ s.right cmp x (lv (i + 1)))).1
        rw [outcome]
        by_cases heq : s.isEqual cmp x n = true
        · refine ⟨some n, by rw [if_pos heq], fun m hm => ?_, by simp⟩
          cases hm
          refine ⟨⟨i + 1, Nat.le_refl _, hn, ?_⟩, heq⟩
          intro k hk hki
          omega
        · rw [if_neg heq]
          simp only [prev_right h hr]
          refine hlift hdown (none_equal h fun m hm => ?_)
          rw [hr, List.head?_cons, Option.some.injEq] at hm
          rw [← hm]
          exact Bool.eq_false_iff.2 heq

end Order

/-- **Search.** In an ascending list `find` is defined; it finds an element equal to `x`, or there is none. -/
theorem find_spec {cmp : T → T → ℤ} {s : SkipList T L} {keys : List T} (hcmp : LawfulCmp cmp) (h : Holds s keys)
    (hasc : Ascending cmp keys) (x : T) :
    ∃ r, find cmp s x = some r ∧ (∀ n, r = some n → ∃ y ∈ keys, s.value n = some y ∧ cmp y x = 0) ∧
      (r = none → ∀ y ∈ keys, cmp y x ≠ 0) := by
  obtain ⟨lv, hrep, rfl, -⟩ := h
  have hs : Sorted cmp s lv := ⟨hrep, hcmp, hasc⟩
  obtain ⟨r, hr, hsome, hnone⟩ := findNode_spec hs (entry_head hs x (L - 1))
  refine ⟨r, hr, fun n hn => ?_, fun hn y hy => ?_⟩
  · obtain ⟨⟨j, -, hj, -⟩, heq⟩ := hsome n hn
    obtain ⟨y, hy⟩ := hrep.valued j n hj
    simp only [isEqual, hy, Option.any_some, decide_eq_true_eq] at heq
    exact ⟨y, hrep.value_mem hj hy, hy, heq⟩
  · obtain ⟨n, hmem, hv⟩ := List.mem_filterMap.1 hy
    have := hnone hn n hmem
    simpa [isEqual, hv] using this

/-! ## Insertion -/

section Link

variable {s : SkipList T L} {lv : ℕ → List ℕ} {data k : ℕ} {x : T} {as bs : List ℕ} {bottom : Option ℕ}

/-- what linking a node does to the links of its level -/
theorem link_links (data : ℕ) (bottom : Option ℕ) (h : Rep s lv) (hk : lv k = as ++ bs) :
    let s' := linkLevel s data as.getLast? k bottom
    s'.next s.fresh = bs.head? ∧ s'.prev s.fresh = as.getLast? ∧
      (∀ p, as.getLast? = some p → s'.next p = some s.fresh) ∧ (∀ q, bs.head? = some q → s'.prev q = some s.fresh) ∧
      (∀ m, m ≠ s.fresh → as.getLast? ≠ some m → s'.next m = s.next m) ∧
      (∀ m, m ≠ s.fresh → bs.head? ≠ some m → s'.prev m = s.prev m) := by
  have hold : ∀ m ∈ as ++ bs, m ≠ s.fresh := fun m hm => Nat.ne_of_lt (h.lt_fresh k m (hk ▸ hm))
  have hfirst : ∀ q, bs.head? = some q → q ≠ s.fresh :=
    fun q hq => hold q (List.mem_append_right _ (List.mem_of_mem_head? hq))
  cases hlast : as.getLast? with
  | none =>
    have hnodes : s.nodes k = bs.head? := by
      rw [h.heads, hk, List.getLast?_eq_none_iff.1 hlast, List.nil_append]
    refine ⟨by simp [linkLevel, hnodes], ?_, by simp, fun q hq => ?_, fun m hm _ => ?_, fun m hm hne => ?_⟩
    · cases hq : bs.head? with
      | none => simp [linkLevel, hnodes, hq]
      | some q => simp [linkLevel, hnodes, hq, Function.update_of_ne (hfirst q hq).symm]
    · simp [linkLevel, hnodes, hq]
    · simp [linkLevel, Function.update_of_ne hm]
    · cases hq : bs.head? with
      | none => simp [linkLevel, hnodes, hq, Function.update_of_ne hm]
      | some q =>
        have hmq : m ≠ q := fun h => hne (by rw [hq, h])
        simp [linkLevel, hnodes, hq, Function.update_of_ne hm, Function.update_of_ne hmq]
  | some p =>
    have hp : p ≠ s.fresh := hold p (List.mem_append_left _ (List.mem_of_getLast? hlast))
    have hnext : s.next p = bs.head? := by
      obtain ⟨cs, rfl⟩ := List.getLast?_eq_some_iff.1 hlast
      have hseg := h.segs k
      rw [hk, List.append_assoc, List.singleton_append] at hseg
      simpa using (seg_at hseg).2
    refine ⟨by simp [linkLevel, hnext, Function.update_of_ne hp.symm], ?_, fun q hq => ?_, fun q hq => ?_,
      fun m hm hne => ?_, fun m hm hne => ?_⟩
    · cases hq : bs.head? with
      | none => simp [linkLevel, hnext, hq]
      | some q => simp [linkLevel, hnext, hq, Function.update_of_ne (hfirst q hq).symm]
    · cases hq
      simp [linkLevel]
    · simp [linkLevel, hnext, hq]
    · have hmp : m ≠ p := fun h => hne (by rw [h])
      simp [linkLevel, Function.update_of_ne hm, Function.update_of_ne hmp]
    · cases hq : bs.head? with
      | none => simp [linkLevel, hnext, hq, Function.update_of_ne hm]
      | some q =>
        have hmq : m ≠ q := fun h => hne (by rw [hq, h])
        simp [linkLevel, hnext, hq, Function.update_of_ne hm, Function.update_of_ne hmq]

theorem link_value (hdata : s.dataList[data]? = some x) (path : Option ℕ) (n : ℕ) :
    (linkLevel s data path k bottom).value n = if n = s.fresh then some x else s.value n := by
  by_cases hn : n = s.fresh
  · rw [if_pos hn, value]
    simp [linkLevel, hn, hdata]
  · rw [if_neg hn, value, value]
    simp [linkLevel, Function.update_of_ne hn]

/-- what a new node of level `k` needs below it: a node of the same element, at the same place -/
def Supported (s : SkipList T L) (lv : ℕ → List ℕ) (data k : ℕ) (as bs : List ℕ) (bottom : Option ℕ) : Prop :=
  ∀ j, k = j + 1 → ∃ b cs ds, bottom = some b ∧ lv j = cs ++ b :: ds ∧ s.dataPtr b = some data ∧
    (as.map s.bottom).Sublist (cs.map some) ∧ (bs.map s.bottom).Sublist (ds.map some)

theorem mem_linked (hk : lv k = as ++ bs) {i m : ℕ} (hm : m ∈ Function.update lv k (as ++ s.fresh :: bs) i) :
    m ∈ lv i ∨ (i = k ∧ m = s.fresh) := by
  by_cases hi : i = k
  · subst hi
    rw [Function.update_self] at hm
    rw [hk]
    simp only [List.mem_append, List.mem_cons] at hm ⊢
    tauto
  · rw [Function.update_of_ne hi] at hm
    exact .inl hm

theorem link_bottom (path : Option ℕ) {m : ℕ} (hm : m ≠ s.fresh) :
    (linkLevel s data path k bottom).bottom m = s.bottom m := Function.update_of_ne hm _ _

theorem link_heads (h : Rep s lv) (hk : lv k = as ++ bs) (data : ℕ) (bottom : Option ℕ) (i : ℕ) :
    (linkLevel s data as.getLast? k bottom).nodes i = (Function.update lv k (as ++ s.fresh :: bs) i).head? := by
  by_cases hi : i = k
  · subst hi
    rw [Function.update_self]
    cases hl : as.getLast? with
    | none => simp [linkLevel, List.getLast?_eq_none_iff.1 hl]
    | some p =>
      have hne : as ≠ [] := fun h => by rw [h] at hl; cases hl
      simp [linkLevel, h.heads, hk, List.head?_append_of_ne_nil _ hne]
  · rw [Function.update_of_ne hi, ← h.heads]
    cases hl : as.getLast? with
    | none => simp [linkLevel, Function.update_of_ne hi]
    | some p => rfl

/-- the levels stay nested -/
theorem link_nested (h : Rep s lv) (hk : lv k = as ++ bs) (hbot : Supported s lv data k as bs bottom) (i : ℕ) :
    ((Function.update lv k (as ++ s.fresh :: bs) (i + 1)).map (linkLevel s data as.getLast? k bottom).bottom).Sublist
      ((Function.update lv k (as ++ s.fresh :: bs) i).map some) := by
  have hold : ∀ i, ∀ l : List ℕ, l ⊆ lv i → l.map (linkLevel s data as.getLast? k bottom).bottom = l.map s.bottom :=
    fun i l hl => List.map_congr_left fun m hm => link_bottom _ (Nat.ne_of_lt (h.lt_fresh i m (hl hm)))
  by_cases hi : i + 1 = k
  · -- the new node goes above its copy
    subst hi
    obtain ⟨b, cs, ds, rfl, hj, -, has, hbs⟩ := hbot i rfl
    have hself : (linkLevel s data as.getLast? (i + 1) (some b)).bottom s.fresh = some b := Function.update_self ..
    have hleft : as ⊆ lv (i + 1) := hk ▸ List.subset_append_left _ _
    have hright : bs ⊆ lv (i + 1) := hk ▸ List.subset_append_right _ _
    rw [Function.update_self, Function.update_of_ne (by omega), hj, List.map_append, List.map_cons, List.map_append,
      List.map_cons, hold _ as hleft, hold _ bs hright, hself]
    exact has.append (hbs.cons_cons _)
  · rw [Function.update_of_ne hi, hold (i + 1) _ (List.Subset.refl _)]
    by_cases hik : i = k
    · subst hik
      rw [Function.update_self]
      apply (h.nested i).trans
      rw [hk]
      exact ((List.Sublist.refl as).append (List.sublist_cons_self _ bs)).map some
    · rw [Function.update_of_ne hik]
      exact h.nested i

/-- **Linking** a node into level `k` keeps the representation -/
theorem link_spec (h : Rep s lv) (hk : lv k = as ++ bs) (hdata : s.dataList[data]? = some x)
    (hbot : Supported s lv data k as bs bottom) :
    Rep (linkLevel s data as.getLast? k bottom) (Function.update lv k (as ++ s.fresh :: bs)) := by
  obtain ⟨hnew, hprev, hlast, hfirst, hnext', hprev'⟩ := link_links data bottom h hk
  have hfresh : ∀ i, s.fresh ∉ lv i := fun i hi => Nat.lt_irrefl _ (h.lt_fresh i _ hi)
  have hold : ∀ i, ∀ m ∈ lv i, m ≠ s.fresh := fun i m hm => Nat.ne_of_lt (h.lt_fresh i m hm)
  have hnotk : ∀ i, i ≠ k → ∀ m ∈ lv i, m ∉ as ++ bs := fun i hi m hm => hk ▸ h.disjoint i k hi m hm
  constructor
  case heads => exact link_heads h hk data bottom
  case segs =>
    intro i
    by_cases hi : i = k
    · subst hi
      rw [Function.update_self]
      have hseg := h.segs i
      rw [hk] at hseg
      exact seg_link (hk ▸ h.nodup i) hnew hprev hlast hfirst (fun m hm hne => hnext' m (hold i m (hk ▸ hm)) hne)
        (fun m hm hne => hprev' m (hold i m (hk ▸ hm)) hne) hseg
    · rw [Function.update_of_ne hi]
      refine seg_congr (fun m hm => hnext' m (hold i m hm) fun hc => ?_)
        (fun m hm => hprev' m (hold i m hm) fun hc => ?_) (h.segs i)
      · exact hnotk i hi m hm (List.mem_append_left _ (List.mem_of_getLast? hc))
      · exact hnotk i hi m hm (List.mem_append_right _ (List.mem_of_mem_head? hc))
  case nodup =>
    intro i
    by_cases hi : i = k
    · subst hi
      rw [Function.update_self, List.nodup_middle, List.nodup_cons, ← hk]
      exact ⟨hfresh i, h.nodup i⟩
    · rw [Function.update_of_ne hi]
      exact h.nodup i
  case disjoint =>
    intro i j hij m hi hj
    cases mem_linked hk hi with
    | inl hi => cases mem_linked hk hj with
      | inl hj => exact h.disjoint i j hij m hi hj
      | inr hj => exact hfresh i (hj.2 ▸ hi)
    | inr hi => cases mem_linked hk hj with
      | inl hj => exact hfresh j (hi.2 ▸ hj)
      | inr hj => exact hij (hi.1.trans hj.1.symm)
  case lt_fresh =>
    intro i m hm
    cases mem_linked hk hm with
    | inl hm => exact Nat.lt_succ_of_lt (h.lt_fresh i m hm)
    | inr hm => exact hm.2 ▸ Nat.lt_succ_self _
  case valued =>
    intro i m hm
    cases mem_linked hk hm with
    | inl hm =>
      obtain ⟨y, hy⟩ := h.valued i m hm
      exact ⟨y, by rw [link_value hdata, if_neg (hold i m hm), hy]⟩
    | inr hm => exact ⟨x, by rw [link_value hdata, if_pos hm.2]⟩
  case nested => exact link_nested h hk hbot
  case below =>
    intro i m hm b hb
    cases mem_linked hk hm with
    | inl hm =>
      rw [link_bottom _ (hold (i + 1) m hm)] at hb
      obtain ⟨c, hc, hcb, -⟩ := h.bottom_mem hm
      rw [hb] at hcb
      cases hcb
      have hptr : ∀ m, m ≠ s.fresh → (linkLevel s data as.getLast? k bottom).dataPtr m = s.dataPtr m :=
        fun m hm => Function.update_of_ne hm _ _
      rw [hptr b (hold i b hc), hptr m (hold (i + 1) m hm), h.below i m hm b hb]
    | inr hm =>
      obtain ⟨rfl, rfl⟩ := hm
      obtain ⟨c, cs, ds, rfl, hj, hptr, -, -⟩ := hbot i rfl
      have hcb : c = b := by simpa [linkLevel] using hb
      subst hcb
      have hcm : c ∈ lv i := by simp [hj]
      simp [linkLevel, Function.update_of_ne (hold i c hcm), hptr]

end Link

section Levels

variable {cmp : T → T → ℤ} {s : SkipList T L} {lv : ℕ → List ℕ} {data : ℕ} {x : T}

/-- the levels after new nodes were linked into the first `k`, on level `i` between `as i` and `bs i` -/
def linkedAt (s : SkipList T L) (lv as bs : ℕ → List ℕ) (k i : ℕ) : List ℕ :=
  if i < k then as i ++ (s.fresh + i) :: bs i else lv i

/-- the first `k` levels are cut in two, both parts nested in those below them through `bottom` -/
structure Cuts (s : SkipList T L) (lv as bs : ℕ → List ℕ) (k : ℕ) : Prop where
  eq : ∀ i < k, lv i = as i ++ bs i
  nested : ∀ i, i + 1 < k → ((as (i + 1)).map s.bottom).Sublist ((as i).map some) ∧
    ((bs (i + 1)).map s.bottom).Sublist ((bs i).map some)

/-- `s'` is `s` with `k` new nodes for the element at `data` -/
structure LinkedAt (s : SkipList T L) (lv as bs : ℕ → List ℕ) (data k : ℕ) (s' : SkipList T L) : Prop
    extends Rep s' (linkedAt s lv as bs k) where
  fresh_eq : s'.fresh = s.fresh + k
  size_eq : s'.size = s.size
  dataList_eq : s'.dataList = s.dataList
  old : ∀ m < s.fresh, s'.dataPtr m = s.dataPtr m ∧ s'.bottom m = s.bottom m
  new : ∀ j < k, s'.dataPtr (s.fresh + j) = some data

section LinkedAt

variable {as bs : ℕ → List ℕ} {k : ℕ} {s' : SkipList T L}

theorem LinkedAt.value_old (h : LinkedAt s lv as bs data k s') {m : ℕ} (hm : m < s.fresh) : s'.value m = s.value m := by
  rw [value, value, (h.old m hm).1, h.dataList_eq]

theorem LinkedAt.value_new (h : LinkedAt s lv as bs data k s') (hdata : s.dataList[data]? = some x) {j : ℕ}
    (hj : j < k) : s'.value (s.fresh + j) = some x := by
  rw [value, h.new j hj, h.dataList_eq, Option.bind_some, hdata]

theorem linkedAt_zero (h : Rep s lv) : LinkedAt s lv as bs data 0 s := by
  have : linkedAt s lv as bs 0 = lv := by
    funext i
    rw [linkedAt, if_neg (Nat.not_lt_zero i)]
  exact ⟨by rw [this]; exact h, rfl, rfl, rfl, fun _ _ => ⟨rfl, rfl⟩, fun j hj => absurd hj (Nat.not_lt_zero j)⟩

/-- the node made last, `none` at the start -/
def lastMade (s : SkipList T L) (k : ℕ) : Option ℕ := if k = 0 then none else some (s.fresh + k - 1)

/-- one more level -/
theorem linkedAt_succ (hr : Rep s lv) (hc : Cuts s lv as bs (k + 1)) (hdata : s.dataList[data]? = some x)
    (h : LinkedAt s lv as bs data k s') :
    LinkedAt s lv as bs data (k + 1) (linkLevel s' data (as k).getLast? k (s.lastMade k)) := by
  have hk : linkedAt s lv as bs k k = as k ++ bs k := by
    rw [linkedAt, if_neg (Nat.lt_irrefl k)]
    exact hc.eq k (Nat.lt_succ_self k)
  have hsup : Supported s' (linkedAt s lv as bs k) data k (as k) (bs k) (s.lastMade k) := by
    intro j hj
    subst hj
    have hsame : ∀ l ⊆ lv (j + 1), l.map s'.bottom = l.map s.bottom := fun l hl =>
      List.map_congr_left fun m hm => (h.old m (hr.lt_fresh (j + 1) m (hl hm))).2
    have hlevel := hc.eq (j + 1) (Nat.lt_succ_self _)
    refine ⟨s.fresh + j, as j, bs j, ?_, ?_, h.new j (by omega), ?_, ?_⟩
    · rw [lastMade, if_neg (Nat.succ_ne_zero j)]
      exact congrArg some (by omega)
    · rw [linkedAt, if_pos (Nat.lt_succ_self j)]
    · rw [hsame _ (hlevel ▸ List.subset_append_left _ _)]
      exact (hc.nested j (Nat.lt_succ_self _)).1
    · rw [hsame _ (hlevel ▸ List.subset_append_right _ _)]
      exact (hc.nested j (Nat.lt_succ_self _)).2
  have hrep := link_spec h.toRep hk (by rw [h.dataList_eq, hdata]) hsup
  have hlv : Function.update (linkedAt s lv as bs k) k (as k ++ s'.fresh :: bs k) = linkedAt s lv as bs (k + 1) := by
    funext i
    by_cases hi : i = k
    · subst hi
      rw [Function.update_self, linkedAt, if_pos (Nat.lt_succ_self i), h.fresh_eq]
    · rw [Function.update_of_ne hi, linkedAt, linkedAt]
      by_cases hlt : i < k
      · rw [if_pos hlt, if_pos (by omega)]
      · rw [if_neg hlt, if_neg (by omega)]
  rw [hlv] at hrep
  have hf := h.fresh_eq
  refine ⟨hrep, by simp only [linkLevel, hf]; omega, h.size_eq, h.dataList_eq, fun m hm => ?_, fun j hj => ?_⟩
  · have hne : m ≠ s'.fresh := by omega
    simp only [linkLevel, Function.update_of_ne hne]
    exact h.old m hm
  · by_cases hlast : j = k
    · simp [linkLevel, hlast, hf]
    · have hne : s.fresh + j ≠ s'.fresh := by omega
      simp only [linkLevel, Function.update_of_ne hne]
      exact h.new j (by omega)

end LinkedAt

/-- the levels after new nodes for `x` were linked into the first `k` -/
def grown (cmp : T → T → ℤ) (s : SkipList T L) (lv : ℕ → List ℕ) (x : T) (k i : ℕ) : List ℕ :=
  if i < k then s.left cmp x (lv i) ++ (s.fresh + i) :: s.right cmp x (lv i) else lv i

/-- `s'` is `s` with `k` new nodes for the element at `data` -/
structure Grown (cmp : T → T → ℤ) (s : SkipList T L) (lv : ℕ → List ℕ) (data : ℕ) (x : T) (k : ℕ)
    (s' : SkipList T L) : Prop extends Rep s' (grown cmp s lv x k) where
  fresh_eq : s'.fresh = s.fresh + k
  size_eq : s'.size = s.size
  dataList_eq : s'.dataList = s.dataList
  old : ∀ m < s.fresh, s'.dataPtr m = s.dataPtr m ∧ s'.bottom m = s.bottom m
  new : ∀ j < k, s'.dataPtr (s.fresh + j) = some data

theorem Grown.linkedAt {k : ℕ} {s' : SkipList T L} (h : Grown cmp s lv data x k s') :
    LinkedAt s lv (fun i => s.left cmp x (lv i)) (fun i => s.right cmp x (lv i)) data k s' :=
  ⟨h.toRep, h.fresh_eq, h.size_eq, h.dataList_eq, h.old, h.new⟩

theorem LinkedAt.grown {k : ℕ} {s' : SkipList T L}
    (h : LinkedAt s lv (fun i => s.left cmp x (lv i)) (fun i => s.right cmp x (lv i)) data k s') :
    Grown cmp s lv data x k s' :=
  ⟨h.toRep, h.fresh_eq, h.size_eq, h.dataList_eq, h.old, h.new⟩

/-- in an ascending list every level is cut at the place of `x` -/
theorem Sorted.cuts (hs : Sorted cmp s lv) (x : T) (k : ℕ) :
    Cuts s lv (fun i => s.left cmp x (lv i)) (fun i => s.right cmp x (lv i)) k :=
  ⟨fun i _ => hs.eq_split x i, fun i _ => ⟨hs.left_nested x i, hs.right_nested x i⟩⟩

/-- the `k` new nodes stand one above the other; the old ones keep what is above them -/
structure Tower (s : SkipList T L) (k : ℕ) (s' : SkipList T L) : Prop where
  fresh_eq : s'.fresh = s.fresh + k
  top_old : ∀ m < s.fresh, s'.top m = s.top m
  bottom_new : ∀ j < k, s'.bottom (s.fresh + j) = s.lastMade j
  top_new : ∀ j < k, s'.top (s.fresh + j) = if j + 1 < k then some (s.fresh + (j + 1)) else none

theorem tower_zero (s : SkipList T L) : Tower s 0 s :=
  ⟨rfl, fun _ _ => rfl, fun j hj => absurd hj (Nat.not_lt_zero j), fun j hj => absurd hj (Nat.not_lt_zero j)⟩

theorem lastMade_some {k m : ℕ} (h : s.lastMade k = some m) : k ≠ 0 ∧ m + 1 = s.fresh + k := by
  rw [lastMade] at h
  split at h
  · cases h
  · rw [Option.some.injEq] at h
    omega

/-- one more node, above the last -/
theorem Tower.succ {k : ℕ} {s' : SkipList T L} (h : Tower s k s') (data : ℕ) (path : Option ℕ) :
    Tower s (k + 1) (linkLevel s' data path k (s.lastMade k)) := by
  have hf := h.fresh_eq
  have htop : ∀ m, m ≠ s.fresh + k → s.lastMade k ≠ some m →
      (linkLevel s' data path k (s.lastMade k)).top m = s'.top m := by
    intro m hm hlast
    cases hb : s.lastMade k with
    | none => simp [linkLevel, hf, Function.update_of_ne hm]
    | some b =>
      have hmb : m ≠ b := fun h => hlast (by rw [hb, h])
      simp [linkLevel, hf, Function.update_of_ne hm, Function.update_of_ne hmb]
  have hlastNe : ∀ m, (k ≠ 0 → m + 1 ≠ s.fresh + k) → s.lastMade k ≠ some m :=
    fun m hm hlast => hm (lastMade_some hlast).1 (lastMade_some hlast).2
  refine ⟨by simp only [linkLevel, hf]; omega, fun m hm => ?_, fun j hj => ?_, fun j hj => ?_⟩
  · rw [htop m (by omega) (hlastNe m (by omega)), h.top_old m hm]
  · by_cases hjk : j = k
    · simp [linkLevel, hjk, hf]
    · have hne : s.fresh + j ≠ s'.fresh := by omega
      simp only [linkLevel, Function.update_of_ne hne]
      exact h.bottom_new j (by omega)
  · by_cases hjk : j = k
    · subst hjk
      rw [if_neg (Nat.lt_irrefl _)]
      cases hb : s.lastMade j with
      | none => simp [linkLevel, hf]
      | some b =>
        have hb' : s.fresh + j ≠ b := fun h => hlastNe (s.fresh + j) (by omega) (by rw [hb, h])
        simp [linkLevel, hf, Function.update_of_ne hb']
    · by_cases hlast : j + 1 = k
      · have hb : s.lastMade k = some (s.fresh + j) := by
          rw [lastMade, if_neg (by omega)]
          exact congrArg some (by omega)
        rw [if_pos (by omega), ← hlast]
        rw [← hlast] at hb
        simp [linkLevel, hb, hf, ← hlast]
      · rw [htop _ (by omega) (hlastNe _ (by omega)), h.top_new j (by omega), if_pos (by omega), if_pos (by omega)]

/-- the loop of `insert_with_path`, on a path that has the place of every cut -/
theorem linkLevels_cuts (hr : Rep s lv) (hdata : s.dataList[data]? = some x) {as bs : ℕ → List ℕ} {path : Path} {k : ℕ}
    (hc : Cuts s lv as bs k) (hpath : ∀ j < k, path j = some (as j).getLast?) :
    ∃ s', linkLevels s data path k = some (s', s.lastMade k) ∧ LinkedAt s lv as bs data k s' ∧ Tower s k s' := by
  induction k with
  | zero => exact ⟨s, rfl, linkedAt_zero hr, tower_zero s⟩
  | succ k ih =>
    have hc' : Cuts s lv as bs k := ⟨fun i hi => hc.eq i (by omega), fun i hi => hc.nested i (by omega)⟩
    obtain ⟨s', hs', hl, ht⟩ := ih hc' fun j hj => hpath j (by omega)
    refine ⟨_, ?_, linkedAt_succ hr hc hdata hl, ht.succ data _⟩
    rw [linkLevels, hs', Option.bind_some]
    simp only [hpath k (Nat.lt_succ_self k), Option.map_some, hl.fresh_eq, lastMade, Nat.succ_ne_zero, if_false]
    rfl

/-- on a path that has every level's place for `x` -/
theorem linkLevels_spec (hs : Sorted cmp s lv) (hdata : s.dataList[data]? = some x) {path : Path} {k : ℕ}
    (hpath : ∀ j < k, path j = some (s.left cmp x (lv j)).getLast?) :
    ∃ s', linkLevels s data path k = some (s', s.lastMade k) ∧ Grown cmp s lv data x k s' ∧ Tower s k s' := by
  obtain ⟨s', hs', hl, ht⟩ := linkLevels_cuts hs.toRep hdata (hs.cuts x k) hpath
  exact ⟨s', hs', hl.grown, ht⟩

/-- into an empty list the levels are linked at their heads -/
theorem firstLevels_cuts (hr : Rep s lv) (h0 : lv 0 = []) (hdata : s.dataList[data]? = some x) (k : ℕ) :
    LinkedAt s lv (fun _ => []) (fun _ => []) data k (firstLevels s data k) ∧ Tower s k (firstLevels s data k) := by
  have hempty := hr.all_empty h0
  have hc : ∀ k, Cuts s lv (fun _ => []) (fun _ => []) k := fun k => ⟨fun i _ => hempty i, fun i _ => by simp⟩
  induction k with
  | zero => exact ⟨linkedAt_zero hr, tower_zero s⟩
  | succ k ih =>
    obtain ⟨ih, ht⟩ := ih
    have hnodes : (firstLevels s data k).nodes k = none := by
      rw [ih.heads, linkedAt, if_neg (Nat.lt_irrefl k), hempty]
      rfl
    have hbottom : (if k = 0 then none else (firstLevels s data k).nodes (k - 1)) = s.lastMade k := by
      rw [lastMade]
      by_cases hk : k = 0
      · rw [if_pos hk, if_pos hk]
      · rw [if_neg hk, if_neg hk, ih.heads, linkedAt, if_pos (by omega)]
        simp only [List.nil_append, List.head?_cons]
        exact congrArg some (by omega)
    have hlink := linkedAt_succ hr (hc (k + 1)) hdata ih
    have heq : firstLevels s data (k + 1) = linkLevel (firstLevels s data k) data none k (s.lastMade k) := by
      simp only [firstLevels, hbottom, linkLevel, hnodes]
    rw [heq]
    exact ⟨hlink, ht.succ data none⟩

theorem firstLevels_spec (hs : Sorted cmp s lv) (h0 : lv 0 = []) (hdata : s.dataList[data]? = some x) (k : ℕ) :
    Grown cmp s lv data x k (firstLevels s data k) ∧ Tower s k (firstLevels s data k) := by
  have hempty := hs.toRep.all_empty h0
  have hleft : (fun i => s.left cmp x (lv i)) = fun _ => [] := funext fun i => by rw [hempty i]; rfl
  have hright : (fun i => s.right cmp x (lv i)) = fun _ => [] := funext fun i => by rw [hempty i]; rfl
  obtain ⟨hl, ht⟩ := firstLevels_cuts hs.toRep h0 hdata k
  exact ⟨LinkedAt.grown (by rwa [hleft, hright]), ht⟩

/-! ## The descent of `insert_node` -/

/-- an equal element of any level is one of level 0 -/
theorem equal_below (hs : Sorted cmp s lv) {i n : ℕ} (hn : n ∈ lv i) (he : s.isEqual cmp x n = true) :
    ∃ m ∈ lv 0, s.isEqual cmp x m = true := by
  induction i generalizing n with
  | zero => exact ⟨n, hn, he⟩
  | succ i ih =>
    obtain ⟨b, hb, -, hv⟩ := hs.bottom_mem hn
    exact ih hb (by rwa [isEqual, hv])

/-- the path above level `i` is what `x` finds before it on these levels -/
def PathAbove (cmp : T → T → ℤ) (s : SkipList T L) (lv : ℕ → List ℕ) (x : T) (path : Path) (i : ℕ) : Prop :=
  ∀ j, i ≤ j → j < L → path j = some (s.left cmp x (lv j)).getLast?

theorem PathAbove.write {path : Path} {i : ℕ} (h : PathAbove cmp s lv x path (i + 1)) :
    PathAbove cmp s lv x (Function.update path i (some (s.left cmp x (lv i)).getLast?)) i := by
  intro j hij hj
  by_cases hji : j = i
  · rw [hji, Function.update_self]
  · rw [Function.update_of_ne hji]
    exact h j (by omega) hj

/-- the descent writes the whole path, unless it meets an element equal to `x` -/
theorem insertNode_spec (hs : Sorted cmp s lv) (h0 : lv 0 ≠ []) {i : ℕ} {start : Option ℕ}
    (he : Entry cmp s lv x i start) (path : Path) (hpath : PathAbove cmp s lv x path (i + 1)) (data height : ℕ) :
    ((∃ n ∈ lv 0, s.isEqual cmp x n = true) → insertNode cmp s data x height i path start = some s) ∧
    ((∀ n ∈ lv 0, s.isEqual cmp x n = false) → ∃ path', PathAbove cmp s lv x path' 0 ∧
        insertNode cmp s data x height i path start = insertWithPath s data path' height) := by
  have hwrite := hpath.write
  induction i generalizing start path with
  | zero =>
    simp only [insertNode, scan_level hs he, Option.bind_some]
    cases hr : s.right cmp x (lv 0) with
    | nil =>
      have hsplit := hs.eq_split x 0
      rw [hr, List.append_nil] at hsplit
      cases hl : (s.left cmp x (lv 0)).getLast? with
      | none => exact absurd (hsplit.trans (List.getLast?_eq_none_iff.1 hl)) h0
      | some n =>
        simp only [outcome, hl, Option.elim_some]
        rw [hl] at hwrite
        refine ⟨fun ⟨m, hm, hme⟩ => ?_, fun _ => ⟨_, hwrite, rfl⟩⟩
        have := isEqual_right hm hme
        rw [hr] at this
        cases this
    | cons n bs =>
      have hn := (mem_right.1 (hr ▸ List.mem_cons_self : n ∈ s.right cmp x (lv 0))).1
      rw [outcome]
      by_cases heq : s.isEqual cmp x n = true
      · rw [if_pos heq]
        refine ⟨fun _ => rfl, fun hno => ?_⟩
        rw [hno n hn] at heq
        cases heq
      · rw [if_neg heq]
        simp only [prev_right hs hr]
        exact ⟨fun ⟨m, hm, hme⟩ => absurd (head_equal hs hr hm hme) heq, fun _ => ⟨_, hwrite, rfl⟩⟩
  | succ i ih =>
    have hdown := entry_descend hs x i
    cases start with
    | none =>
      obtain ⟨as₁, as₂, has, hstart, hnil⟩ := he
      have hend := List.head?_eq_none_iff.1 hstart.symm
      have hleft : s.left cmp x (lv (i + 1)) = [] := by
        rw [has, hnil hend, (List.append_eq_nil_iff.1 hend).1, List.append_nil]
      rw [hleft] at hwrite
      exact ih (entry_head hs x i) _ hwrite hwrite.write
    | some start =>
      simp only [insertNode, scan_level hs he, Option.bind_some]
      cases hr : s.right cmp x (lv (i + 1)) with
      | nil =>
        cases hl : (s.left cmp x (lv (i + 1))).getLast? with
        | none =>
          obtain ⟨as₁, as₂, has, hstart, -⟩ := he
          rw [List.getLast?_eq_none_iff.1 hl] at has
          rw [hr, (List.append_eq_nil_iff.1 has.symm).2] at hstart
          cases hstart
        | some n =>
          rw [hl] at hwrite hdown
          simp only [outcome, hl, Option.elim_some]
          exact ih hdown _ hwrite hwrite.write
      | cons n bs =>
        have hn := (mem_right.1 (hr ▸ List.mem_cons_self : n ∈ s.right cmp x (lv (i + 1)))).1
        rw [outcome]
        by_cases heq : s.isEqual cmp x n = true
        · rw [if_pos heq]
          refine ⟨fun _ => rfl, fun hno => ?_⟩
          obtain ⟨m, hm, hme⟩ := equal_below hs hn heq
          rw [hno m hm] at hme
          cases hme
        · rw [if_neg heq]
          simp only [prev_right hs hr]
          exact ih hdown _ hwrite hwrite.write

end Levels

/-! ## The operations on the elements -/

/-- `x` in its place, unless there is an element equal to it -/
def insertKey (cmp : T → T → ℤ) (x : T) (keys : List T) : List T :=
  if keys.any fun y => cmp y x = 0 then keys
  else keys.filter (fun y => cmp y x < 0) ++ x :: keys.filter fun y => !decide (cmp y x < 0)

section Keys

variable {cmp : T → T → ℤ} {s : SkipList T L} {lv : ℕ → List ℕ} {x : T}

theorem elems_left (l : List ℕ) : s.elems (s.left cmp x l) = (s.elems l).filter fun y => cmp y x < 0 := by
  induction l with
  | nil => rfl
  | cons n l ih =>
    cases hn : s.value n with
    | none =>
      have hb : s.isBelow cmp x n = false := by simp [isBelow, hn]
      simpa [left, elems, hn, hb] using ih
    | some y =>
      by_cases hlt : cmp y x < 0
      · have hb : s.isBelow cmp x n = true := by simp [isBelow, hn, hlt]
        simpa [left, elems, hn, hb, hlt] using ih
      · have hb : s.isBelow cmp x n = false := by simp [isBelow, hn, hlt]
        simpa [left, elems, hn, hb, hlt] using ih

theorem elems_right (l : List ℕ) : s.elems (s.right cmp x l) = (s.elems l).filter fun y => !decide (cmp y x < 0) := by
  induction l with
  | nil => rfl
  | cons n l ih =>
    cases hn : s.value n with
    | none =>
      have hb : s.isBelow cmp x n = false := by simp [isBelow, hn]
      simpa [right, elems, hn, hb] using ih
    | some y =>
      by_cases hlt : cmp y x < 0
      · have hb : s.isBelow cmp x n = true := by simp [isBelow, hn, hlt]
        simpa [right, elems, hn, hb, hlt] using ih
      · have hb : s.isBelow cmp x n = false := by simp [isBelow, hn, hlt]
        simpa [right, elems, hn, hb, hlt] using ih

theorem mem_insertKey {keys : List T} {y : T} (h : y ∈ insertKey cmp x keys) : y = x ∨ y ∈ keys := by
  rw [insertKey] at h
  split at h
  · exact .inr h
  · simp only [List.mem_append, List.mem_filter, List.mem_cons] at h
    tauto

theorem mem_insertKey_new {keys : List T} (hno : ∀ y ∈ keys, cmp y x ≠ 0) : x ∈ insertKey cmp x keys := by
  have hnone : ¬ keys.any (fun y => cmp y x = 0) = true := by simpa using hno
  rw [insertKey, if_neg hnone]
  simp

theorem mem_insertKey_old {keys : List T} {y : T} (h : y ∈ keys) : y ∈ insertKey cmp x keys := by
  rw [insertKey]
  split
  · exact h
  · by_cases hlt : cmp y x < 0 <;> simp [h, hlt]

theorem insertKey_ascending (hcmp : LawfulCmp cmp) {keys : List T} (h : Ascending cmp keys) (x : T) :
    Ascending cmp (insertKey cmp x keys) := by
  rw [insertKey]
  split
  · exact h
  · next hnone =>
    simp only [List.any_eq_true, decide_eq_true_eq, not_exists, not_and] at hnone
    have hgt : ∀ y ∈ keys, ¬ cmp y x < 0 → cmp x y < 0 :=
      fun y hy hn => (hcmp.swap x y).2 (by have := hnone y hy; omega)
    refine List.pairwise_append.2 ⟨h.filter _, List.pairwise_cons.2 ⟨fun y hy => ?_, h.filter _⟩, fun y hy z hz => ?_⟩
    · have := List.mem_filter.1 hy
      exact hgt y this.1 (by simpa using this.2)
    · have hyx : cmp y x < 0 := by simpa using (List.mem_filter.1 hy).2
      cases hz with
      | head => exact hyx
      | tail _ hz =>
        have := List.mem_filter.1 hz
        exact hcmp.lt_trans hyx (hgt z this.1 (by simpa using this.2))

theorem Rep.grow (h : Rep s lv) : Rep s.grow lv :=
  ⟨h.heads, h.segs, h.nodup, h.disjoint, h.lt_fresh, h.valued, h.nested, h.below⟩

/-- one more element in `data_list` changes no node -/
theorem Rep.append_value (h : Rep s lv) (x : T) {i n : ℕ} (hn : n ∈ lv i) :
    (s.append x).value n = s.value n := by
  obtain ⟨y, hy⟩ := h.valued i n hn
  obtain ⟨p, hp, hget⟩ := Option.bind_eq_some_iff.1 hy
  have hlt : p < s.dataList.length := (List.getElem?_eq_some_iff.1 hget).1
  have hp' : (s.append x).dataPtr n = some p := hp
  rw [hy, value, hp', Option.bind_some, SkipList.append, List.getElem?_append_left hlt, hget]

theorem Rep.append (h : Rep s lv) (x : T) : Rep (s.append x) lv :=
  ⟨h.heads, h.segs, h.nodup, h.disjoint, h.lt_fresh, fun i n hn => by rw [h.append_value x hn]; exact h.valued i n hn,
    h.nested, h.below⟩

theorem Rep.append_elems (h : Rep s lv) (x : T) (i : ℕ) :
    (s.append x).elems (lv i) = s.elems (lv i) :=
  List.filterMap_congr fun _ hn => h.append_value x hn

/-- the elements after new nodes were linked -/
theorem LinkedAt.elems_eq {as bs : ℕ → List ℕ} {data k : ℕ} {s' : SkipList T L} (hr : Rep s lv) (hk : 0 < k)
    (hlv : lv 0 = as 0 ++ bs 0) (hdata : s.dataList[data]? = some x) (h : LinkedAt s lv as bs data k s') :
    s'.elems (linkedAt s lv as bs k 0) = s.elems (as 0) ++ x :: s.elems (bs 0) := by
  have hold : ∀ l : List ℕ, l ⊆ lv 0 → s'.elems l = s.elems l := fun l hl =>
    List.filterMap_congr fun n hn => h.value_old (hr.lt_fresh 0 n (hl hn))
  have hnew : s'.value (s.fresh + 0) = some x := h.value_new hdata hk
  have hl := hold (as 0) (hlv ▸ List.subset_append_left _ _)
  have hr := hold (bs 0) (hlv ▸ List.subset_append_right _ _)
  rw [← hl, ← hr, linkedAt, if_pos hk]
  simp only [elems, List.filterMap_append, List.filterMap_cons, hnew]

theorem Grown.elems_eq {data k : ℕ} {s' : SkipList T L} (hs : Sorted cmp s lv) (hk : 0 < k)
    (hdata : s.dataList[data]? = some x) (hno : ∀ y ∈ s.elems (lv 0), cmp y x ≠ 0) (h : Grown cmp s lv data x k s') :
    s'.elems (grown cmp s lv x k 0) = insertKey cmp x (s.elems (lv 0)) := by
  have hnone : ¬ (s.elems (lv 0)).any (fun y => cmp y x = 0) = true := by simpa using hno
  rw [insertKey, if_neg hnone, ← elems_left, ← elems_right]
  exact h.linkedAt.elems_eq hs.toRep hk (hs.eq_split x 0) hdata

theorem insertKey_length {keys : List T} (hno : ∀ y ∈ keys, cmp y x ≠ 0) :
    (insertKey cmp x keys).length = keys.length + 1 := by
  have hnone : ¬ keys.any (fun y => cmp y x = 0) = true := by simpa using hno
  rw [insertKey, if_neg hnone]
  have := List.length_eq_length_filter_add (l := keys) fun y => decide (cmp y x < 0)
  simp only [List.length_append, List.length_cons]
  omega

/-- new nodes linked into the first levels, and the size counted -/
theorem Grown.holds {data k : ℕ} {s' : SkipList T L} (hs : Sorted cmp s lv) (hk : 0 < k)
    (hdata : s.dataList[data]? = some x) (hsize : s.size = (s.elems (lv 0)).length)
    (hno : ∀ y ∈ s.elems (lv 0), cmp y x ≠ 0) (h : Grown cmp s lv data x k s') :
    Holds s'.grow (insertKey cmp x (s.elems (lv 0))) := by
  refine ⟨_, h.toRep.grow, (h.elems_eq hs hk hdata hno :), ?_⟩
  rw [insertKey_length hno, SkipList.grow, h.size_eq, hsize]

theorem isEqual_iff {n : ℕ} : s.isEqual cmp x n = true ↔ ∃ y, s.value n = some y ∧ cmp y x = 0 := by
  cases hn : s.value n <;> simp [isEqual, hn]

end Keys

/-- `insert` is defined for every height below `L`: with an equal element there it only fills `data_list`, without one
it links a tower of new nodes -/
theorem insert_cases {cmp : T → T → ℤ} {s : SkipList T L} {lv : ℕ → List ℕ} {x : T} {height : ℕ}
    (hs : Sorted cmp (s.append x) lv) (hheight : height < L) :
    ((∃ y ∈ (s.append x).elems (lv 0), cmp y x = 0) ∧ insert cmp s x height = some (s.append x)) ∨
    ((∀ y ∈ (s.append x).elems (lv 0), cmp y x ≠ 0) ∧ ∃ t, insert cmp s x height = some t.grow ∧
      Grown cmp (s.append x) lv s.dataList.length x (height + 1) t ∧ Tower (s.append x) (height + 1) t) := by
  have hdata : (s.append x).dataList[s.dataList.length]? = some x := by simp [SkipList.append]
  have hnodes : s.nodes 0 = (lv 0).head? := hs.heads 0
  by_cases h0 : s.nodes 0 = none
  · have hlv0 : lv 0 = [] := List.head?_eq_none_iff.1 (hnodes.symm.trans h0)
    have hno : ∀ y ∈ (s.append x).elems (lv 0), cmp y x ≠ 0 := by
      simp [hlv0, elems]
    exact .inr ⟨hno, _, if_pos h0, firstLevels_spec hs hlv0 hdata (height + 1)⟩
  · have hlv0 : lv 0 ≠ [] := fun hnil => h0 (by rw [hnodes, hnil]; rfl)
    have hdescent := insertNode_spec hs hlv0 (entry_head hs x (L - 1)) (fun _ => none)
      (fun j hj hjL => by omega) s.dataList.length height
    have h0' : ¬ (s.append x).nodes 0 = none := h0
    rw [insert, if_neg h0']
    by_cases hdup : ∃ n ∈ lv 0, isEqual cmp (s.append x) x n = true
    · refine .inl ⟨?_, hdescent.1 hdup⟩
      obtain ⟨n, hn, heq⟩ := hdup
      obtain ⟨y, hy, hyx⟩ := isEqual_iff.1 heq
      exact ⟨y, hs.value_mem hn hy, hyx⟩
    · have hneq : ∀ n ∈ lv 0, isEqual cmp (s.append x) x n = false := by
        intro n hn
        rw [← Bool.not_eq_true]
        exact fun heq => hdup ⟨n, hn, heq⟩
      have hno : ∀ y ∈ (s.append x).elems (lv 0), cmp y x ≠ 0 := by
        intro y hy hyx
        obtain ⟨n, hn, hv⟩ := List.mem_filterMap.1 hy
        exact hdup ⟨n, hn, isEqual_iff.2 ⟨y, hv, hyx⟩⟩
      obtain ⟨path, hpath, hins⟩ := hdescent.2 hneq
      obtain ⟨t, hlinks, hgrown⟩ := linkLevels_spec (k := height + 1) hs hdata fun j hj => hpath j (by omega) (by omega)
      exact .inr ⟨hno, t, by rw [hins, insertWithPath, hlinks, Option.map_some], hgrown⟩

/-- **Insertion.** In an ascending list, for every height below `L`, `insert` is defined and puts the element in its
place unless an equal one is there. -/
theorem insert_spec {cmp : T → T → ℤ} {s : SkipList T L} {keys : List T} (hcmp : LawfulCmp cmp) (h : Holds s keys)
    (hasc : Ascending cmp keys) (x : T) {height : ℕ} (hheight : height < L) :
    ∃ s', insert cmp s x height = some s' ∧ Holds s' (insertKey cmp x keys) := by
  obtain ⟨lv, hrep, rfl, hsize⟩ := h
  have helems := hrep.append_elems x 0
  have hs : Sorted cmp (s.append x) lv := ⟨hrep.append x, hcmp, by rwa [helems]⟩
  have hdata : (s.append x).dataList[s.dataList.length]? = some x := by simp [SkipList.append]
  rw [← helems] at hsize ⊢
  cases insert_cases hs hheight with
  | inl hold =>
    obtain ⟨⟨y, hy, hyx⟩, hins⟩ := hold
    have hany : ((s.append x).elems (lv 0)).any (fun y => cmp y x = 0) = true :=
      List.any_eq_true.2 ⟨y, hy, by simpa using hyx⟩
    exact ⟨_, hins, lv, hs.toRep, by rw [insertKey, if_pos hany], by rw [insertKey, if_pos hany]; exact hsize⟩
  | inr hnew =>
    obtain ⟨hno, t, hins, hgrown, -⟩ := hnew
    exact ⟨_, hins, hgrown.holds hs (Nat.succ_pos height) hdata hsize hno⟩

/-! ## Iteration -/

theorem walk_spec {s : SkipList T L} {l : List ℕ} {b : Option ℕ} (hseg : Seg s.next s.prev b l none)
    (hval : ∀ n ∈ l, ∃ y, s.value n = some y) {fuel : ℕ} (hfuel : l.length ≤ fuel) :
    walk s fuel l.head? = some (s.elems l) := by
  induction l generalizing b fuel with
  | nil => cases fuel <;> rfl
  | cons n l ih =>
    obtain ⟨fuel, rfl⟩ : ∃ m, fuel = m + 1 := ⟨fuel - 1, by simp at hfuel; omega⟩
    obtain ⟨y, hy⟩ := hval n (by simp)
    obtain ⟨-, hnext, hseg⟩ := hseg
    rw [Option.or_none] at hnext
    rw [List.head?_cons, walk, hy, Option.bind_some, hnext,
      ih hseg (fun m hm => hval m (List.mem_cons_of_mem _ hm)) (by simpa using hfuel)]
    simp [elems, hy]

/-- `begin()` only looks whether `size` is 0 -/
theorem toList_rep {s : SkipList T L} {lv : ℕ → List ℕ} (h : Rep s lv) (hsize : (lv 0).length ≤ s.size) :
    toList s = some (s.elems (lv 0)) := by
  have hstart : (if s.size = 0 then none else s.nodes 0) = (lv 0).head? := by
    rw [h.heads]
    split
    · next hz => rw [List.length_eq_zero_iff.1 (by omega : (lv 0).length = 0)]; rfl
    · rfl
  rw [toList, hstart]
  exact walk_spec (h.segs 0) (h.valued 0) (h.length_le 0)

/-- **Iteration** visits the elements in order. -/
theorem toList_spec {s : SkipList T L} {keys : List T} (h : Holds s keys) : toList s = some keys := by
  obtain ⟨lv, hrep, rfl, hsize⟩ := h
  rw [hrep.elems_length] at hsize
  exact toList_rep hrep (Nat.le_of_eq hsize.symm)

end SkipList

end K23Search
