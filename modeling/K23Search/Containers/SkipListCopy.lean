/-
The copy operations of `qs::skip_list` (include/qs/skip_list.hpp). Both insert the elements of the other list's
`data_list`, in the order in which they were inserted there, with new heights. The copy constructor has no initializer
for `size`, which is then an argument here; the assignment leaves the elements of its target where they are and only
takes `cmp` over.

`size` counts without bound here; `getSize` is what is left of it in a `std::size_t`, for `get_size()` and for the test
of `begin()` (`visited`). `contents` is level 0, whatever `size` says.

Results:
- `insert_offset`: `insert` counts in `size` and does not read it;
- `insertKeys_eq`: inserting all of `data_list` into any part of the elements gives the elements;
- `insertKeys_length`: how many elements there are after inserting all of `data_list` into others;
- `run_size`: `size` counts the insertions whose search ends at a place (`adds`), whatever the list;
- `copy_iff`: what a copy equals the source on.
-/
import K23Search.Containers.SkipListRuns
import K23Search.Containers.SkipListLinks
import Mathlib.Algebra.GroupWithZero.Nat

namespace K23Search.SkipList

open K23Search.Lib

variable {T : Type} {L : ℕ}

/-! ## Model -/

/-- the loop of both copy operations over `data_list`; `heights i` is the `i`-th outcome of `random_level` -/
def insertAll (cmp : T → T → ℤ) (s : SkipList T L) (xs : List T) (heights : ℕ → ℕ) : Option (SkipList T L) :=
  run (step cmp) s (xs.mapIdx fun i x => (x, heights i))

def withSize (s : SkipList T L) (size : ℕ) : SkipList T L := { s with size := size }

/-- `skip_list(const skip_list &other)`, `cmp` being the other's; `uninit` is what `size` holds before -/
def copyConstruct (uninit : ℕ) (cmp : T → T → ℤ) (other : SkipList T L) (heights : ℕ → ℕ) : Option (SkipList T L) :=
  insertAll cmp (empty.withSize uninit) other.dataList heights

/-- `operator=(const skip_list &other)` of another list -/
def copyAssign (cmp : T → T → ℤ) (this other : SkipList T L) (heights : ℕ → ℕ) : Option (SkipList T L) :=
  insertAll cmp this other.dataList heights

/-- `get_size()` -/
def getSize (s : SkipList T L) : ℕ := s.size % 2 ^ 64

/-- the elements on level 0 -/
def contents (s : SkipList T L) : Option (List T) := walk s s.fresh (s.nodes 0)

/-- what the loop from `begin()` to `end()` visits: nothing, if `size` is 0 -/
def visited (s : SkipList T L) : Option (List T) := walk s s.fresh (if s.getSize = 0 then none else s.nodes 0)

/-- the lists that exist, with their comparison, when all comparisons are in `C` -/
inductive Existing (C : Set (T → T → ℤ)) : (T → T → ℤ) → SkipList T L → Prop where
  | construct {cmp : T → T → ℤ} : cmp ∈ C → Existing C cmp empty
  | insert {cmp : T → T → ℤ} {s s' : SkipList T L} {x : T} {height : ℕ} :
      Existing C cmp s → height < L → insert cmp s x height = some s' → Existing C cmp s'
  | copyConstruct {cmp : T → T → ℤ} {other s' : SkipList T L} {uninit : ℕ} {heights : ℕ → ℕ} :
      Existing C cmp other → (∀ i, heights i < L) → copyConstruct uninit cmp other heights = some s' → Existing C cmp s'
  | copyAssign {cmp cmp' : T → T → ℤ} {this other s' : SkipList T L} {heights : ℕ → ℕ} :
      Existing C cmp' this → Existing C cmp other → (∀ i, heights i < L) →
      copyAssign cmp this other heights = some s' → Existing C cmp s'

/-- the copy `c` of `s` -/
structure Copied (s c : SkipList T L) : Prop where
  size : c.getSize = s.getSize
  elements : c.visited = s.visited

/-- what `size` says beyond the number of elements; 0 for a list that was constructed empty -/
def surplus (s : SkipList T L) : ℕ := s.size - (s.contents.getD []).length

/-- whether the search of `insert_node` ends at a place for the element, not at an equal one -/
def findsPlace (cmp : T → T → ℤ) (s : SkipList T L) (x : T) : ℕ → Option ℕ → Option Bool
  | 0, start => (scan cmp s x s.fresh start).map fun
    | .off | .found _ => false
    | .before _ | .last _ => true
  | level + 1, none => findsPlace cmp s x level (s.nodes level)
  | level + 1, some start => (scan cmp s x s.fresh (some start)).bind fun
    | .off | .found _ => some false
    | .before n => findsPlace cmp s x level (s.descend level (s.prev n))
    | .last n => findsPlace cmp s x level (s.bottom n)

/-- whether `insert` adds the element -/
def adds (cmp : T → T → ℤ) (s : SkipList T L) (x : T) : Option Bool :=
  let s := s.append x
  if s.nodes 0 = none then some true else findsPlace cmp s x (L - 1) (s.nodes (L - 1))

/-- how many elements are added when they are inserted one after the other -/
def additions (cmp : T → T → ℤ) (s : SkipList T L) : List (T × ℕ) → ℕ
  | [] => 0
  | a :: as => (if adds cmp s a.1 = some true then 1 else 0) + (step cmp s a).elim 0 fun t => additions cmp t as

/-- the elements among `keys` that have no equal in `old` -/
def newTo (cmp : T → T → ℤ) (old keys : List T) : List T := keys.filter fun x => old.all fun y => cmp y x ≠ 0

/-! ## The size -/

section Offset

/-- a list whose `size` says more -/
def offset (s : SkipList T L) (d : ℕ) : SkipList T L := s.withSize (s.size + d)

variable {cmp : T → T → ℤ}

theorem scan_offset (s : SkipList T L) (d : ℕ) (x : T) (fuel : ℕ) (start : Option ℕ) :
    scan cmp (s.offset d) x fuel start = scan cmp s x fuel start := by
  induction fuel generalizing start with
  | zero => cases start <;> rfl
  | succ fuel ih =>
    cases start with
    | none => rfl
    | some n =>
      rw [scan, scan]
      simp only [ih]
      rfl

theorem linkLevels_offset (s : SkipList T L) (d data : ℕ) (path : Path) (k : ℕ) :
    linkLevels (s.offset d) data path k = (linkLevels s data path k).map fun r => (r.1.offset d, r.2) := by
  induction k with
  | zero => rfl
  | succ k ih =>
    rw [linkLevels, linkLevels, ih]
    cases linkLevels s data path k with
    | none => rfl
    | some r => cases path k <;> rfl

theorem grow_offset (s : SkipList T L) (d : ℕ) : (s.offset d).grow = s.grow.offset d := by
  simp only [grow, offset, withSize, Nat.add_right_comm]

theorem insertWithPath_offset (s : SkipList T L) (d data : ℕ) (path : Path) (height : ℕ) :
    insertWithPath (s.offset d) data path height = (insertWithPath s data path height).map (offset · d) := by
  rw [insertWithPath, insertWithPath, linkLevels_offset]
  cases linkLevels s data path (height + 1) with
  | none => rfl
  | some r => exact congrArg some (grow_offset r.1 d)

theorem firstLevels_offset (s : SkipList T L) (d data k : ℕ) :
    firstLevels (s.offset d) data k = (firstLevels s data k).offset d := by
  induction k with
  | zero => rfl
  | succ k ih =>
    rw [firstLevels, ih]
    rfl

theorem insertNode_offset (s : SkipList T L) (d data : ℕ) (x : T) (height i : ℕ) (path : Path) (start : Option ℕ) :
    insertNode cmp (s.offset d) data x height i path start =
      (insertNode cmp s data x height i path start).map (offset · d) := by
  induction i generalizing path start with
  | zero =>
    rw [insertNode, insertNode, scan_offset]
    show (scan cmp s x s.fresh start).bind _ = _
    cases scan cmp s x s.fresh start with
    | none => rfl
    | some r => cases r with
      | off => rfl
      | found n => rfl
      | before n => exact insertWithPath_offset s d data _ height
      | last n => exact insertWithPath_offset s d data _ height
  | succ i ih =>
    cases start with
    | none => exact ih _ _
    | some start =>
      rw [insertNode, insertNode, scan_offset]
      show (scan cmp s x s.fresh (some start)).bind _ = _
      cases scan cmp s x s.fresh (some start) with
      | none => rfl
      | some r => cases r with
        | off => rfl
        | found n => rfl
        | before n => exact ih _ _
        | last n => exact ih _ _

/-- `insert` does not read `size` -/
theorem insert_offset (s : SkipList T L) (d : ℕ) (x : T) (height : ℕ) :
    insert cmp (s.offset d) x height = (insert cmp s x height).map (offset · d) := by
  have happend : (s.offset d).append x = (s.append x).offset d := rfl
  have hnodes : ((s.append x).offset d).nodes = (s.append x).nodes := rfl
  rw [insert, insert, happend, hnodes]
  by_cases h0 : (s.append x).nodes 0 = none
  · rw [if_pos h0, if_pos h0, firstLevels_offset, grow_offset, Option.map_some]
    rfl
  · rw [if_neg h0, if_neg h0, insertNode_offset]
    rfl

theorem run_offset (s : SkipList T L) (d : ℕ) (xs : List (T × ℕ)) :
    run (step cmp) (s.offset d) xs = (run (step cmp) s xs).map (offset · d) := by
  induction xs generalizing s with
  | nil => rfl
  | cons a xs ih =>
    have hstep : step cmp (s.offset d) a = (step cmp s a).map (offset · d) := insert_offset s d a.1 a.2
    rw [run, run, hstep]
    cases step cmp s a with
    | none => rfl
    | some t => exact ih t

theorem Rep.withSize {s : SkipList T L} {lv : ℕ → List ℕ} (h : Rep s lv) (size : ℕ) : Rep (s.withSize size) lv :=
  ⟨h.heads, h.segs, h.nodup, h.disjoint, h.lt_fresh, h.valued, h.nested, h.below⟩

theorem Rep.offset {s : SkipList T L} {lv : ℕ → List ℕ} (h : Rep s lv) (d : ℕ) : Rep (s.offset d) lv := h.withSize _

@[simp] theorem offset_size (s : SkipList T L) (d : ℕ) : (s.offset d).size = s.size + d := rfl

end Offset

section Additions

variable {cmp : T → T → ℤ} {s s' : SkipList T L}

theorem linkLevels_size {data k : ℕ} {path : Path} {r : SkipList T L × Option ℕ}
    (h : linkLevels s data path k = some r) : r.1.size = s.size := by
  induction k generalizing r with
  | zero =>
    cases h
    rfl
  | succ k ih =>
    obtain ⟨u, hu, hlink⟩ := Option.bind_eq_some_iff.1 h
    obtain ⟨p, -, rfl⟩ := Option.map_eq_some_iff.1 hlink
    have hsize : u.1.size = s.size := ih hu
    exact hsize

theorem firstLevels_size (s : SkipList T L) (data k : ℕ) : (firstLevels s data k).size = s.size := by
  induction k with
  | zero => rfl
  | succ k ih => exact ih

theorem insertWithPath_size {data height : ℕ} {path : Path} (h : insertWithPath s data path height = some s') :
    s'.size = s.size + 1 := by
  obtain ⟨r, hr, rfl⟩ := Option.map_eq_some_iff.1 h
  exact congrArg (· + 1) (linkLevels_size hr)

theorem insertNode_size {data height : ℕ} {x : T} (i : ℕ) {path : Path} {start : Option ℕ}
    (h : insertNode cmp s data x height i path start = some s') :
    s'.size = s.size + if findsPlace cmp s x i start = some true then 1 else 0 := by
  induction i generalizing path start with
  | zero =>
    rw [findsPlace]
    obtain ⟨r, hr, hins⟩ := Option.bind_eq_some_iff.1 h
    rw [hr, Option.map_some]
    cases r with
    | off | found n =>
      cases hins
      rfl
    | before n | last n => exact insertWithPath_size hins
  | succ i ih =>
    cases start with
    | none => exact ih h
    | some start =>
      rw [findsPlace]
      obtain ⟨r, hr, hins⟩ := Option.bind_eq_some_iff.1 h
      rw [hr, Option.bind_some]
      cases r with
      | off | found n =>
        cases hins
        rfl
      | before n | last n => exact ih hins

/-- `insert` counts what it adds -/
theorem insert_size {x : T} {height : ℕ} (h : insert cmp s x height = some s') :
    s'.size = s.size + if adds cmp s x = some true then 1 else 0 := by
  rw [insert] at h
  rw [adds]
  split at h
  · next h0 =>
    cases h
    rw [if_pos h0]
    exact congrArg (· + 1) (firstLevels_size _ _ _)
  · next h0 =>
    rw [if_neg h0]
    exact insertNode_size _ h

theorem run_size {xs : List (T × ℕ)} (h : run (step cmp) s xs = some s') : s'.size = s.size + additions cmp s xs := by
  induction xs generalizing s with
  | nil =>
    cases h
    rfl
  | cons a xs ih =>
    obtain ⟨t, ht, hrun⟩ := Option.bind_eq_some_iff.1 h
    rw [additions, ht, Option.elim_some, ← Nat.add_assoc, ← insert_size ht]
    exact ih hrun

end Additions

/-! ## The elements of a copy -/

section Keys

variable {cmp : T → T → ℤ} {keys : List T} {s : SkipList T L} {lv : ℕ → List ℕ}

theorem LawfulCmp.refl (h : LawfulCmp cmp) (x : T) : cmp x x = 0 := by
  have := h.swap x x
  omega

/-- inserting `xs` one after the other -/
def insertKeys (cmp : T → T → ℤ) (keys xs : List T) : List T := xs.foldl (fun keys x => insertKey cmp x keys) keys

theorem insertKeys_append (keys xs : List T) (x : T) :
    insertKeys cmp keys (xs ++ [x]) = insertKey cmp x (insertKeys cmp keys xs) := by
  rw [insertKeys, List.foldl_append]
  rfl

/-- what inserts leave: the old elements, and new ones that are the first of their class among `xs`, for every class -/
structure Filled (cmp : T → T → ℤ) (keys xs all : List T) : Prop where
  ascending : Ascending cmp all
  old : ∀ y ∈ keys, y ∈ all
  represented : ∀ z ∈ xs, ∃ y ∈ all, cmp y z = 0
  first : ∀ y ∈ all, y ∈ keys ∨ ∃ p, IsFirst cmp xs p ∧ xs[p]? = some y

theorem insertKeys_filled (hcmp : LawfulCmp cmp) (hasc : Ascending cmp keys) (xs : List T) :
    Filled cmp keys xs (insertKeys cmp keys xs) := by
  induction xs using List.reverseRecOn with
  | nil => exact ⟨hasc, fun y hy => hy, by simp, fun y hy => .inl hy⟩
  | append_singleton xs x ih =>
    rw [insertKeys_append]
    have hkept : ∀ y ∈ insertKeys cmp keys xs,
        y ∈ keys ∨ ∃ p, IsFirst cmp (xs ++ [x]) p ∧ (xs ++ [x])[p]? = some y := by
      intro y hy
      rcases ih.first y hy with hy | ⟨p, hp, hget⟩
      · exact .inl hy
      · exact .inr ⟨p, isFirst_append.2 (.inl hp), by
          rw [List.getElem?_append_left (List.getElem?_eq_some_iff.1 hget).1, hget]⟩
    constructor
    case ascending => exact insertKey_ascending hcmp ih.ascending x
    case old => exact fun y hy => mem_insertKey_old (ih.old y hy)
    case represented =>
      intro z hz
      rcases List.mem_append.1 hz with hz | hz
      · obtain ⟨y, hy, hyz⟩ := ih.represented z hz
        exact ⟨y, mem_insertKey_old hy, hyz⟩
      · rw [List.mem_singleton.1 hz]
        by_cases hany : ∃ y ∈ insertKeys cmp keys xs, cmp y x = 0
        · obtain ⟨y, hy, hyx⟩ := hany
          exact ⟨y, mem_insertKey_old hy, hyx⟩
        · exact ⟨x, mem_insertKey_new fun y hy hyx => hany ⟨y, hy, hyx⟩, hcmp.refl x⟩
    case first =>
      intro y hy
      by_cases hany : ∃ y ∈ insertKeys cmp keys xs, cmp y x = 0
      · have hsame : insertKey cmp x (insertKeys cmp keys xs) = insertKeys cmp keys xs := by
          rw [insertKey, if_pos]
          simpa using hany
        exact hkept y (by rwa [hsame] at hy)
      · rcases mem_insertKey hy with rfl | hy
        · -- an equal element before it would be represented
          refine .inr ⟨xs.length, isFirst_append.2 (.inr ⟨rfl, fun z hz hzy => ?_⟩), List.getElem?_concat_length⟩
          obtain ⟨e, he, hez⟩ := ih.represented z hz
          exact hany ⟨e, he, hcmp.equal_trans hez hzy⟩
        · exact hkept y hy

/-- in an ascending list equal elements are the same -/
theorem Ascending.eq_of_equal (hcmp : LawfulCmp cmp) (h : Ascending cmp keys) {y z : T} (hy : y ∈ keys) (hz : z ∈ keys)
    (hyz : cmp y z = 0) : y = z := by
  have hfind := find?_ascending hcmp h hy hyz
  rw [find?_ascending hcmp h hz (hcmp.refl z), Option.some.injEq] at hfind
  exact hfind.symm

theorem Ascending.nodup (hcmp : LawfulCmp cmp) (h : Ascending cmp keys) : keys.Nodup := by
  refine h.imp fun {a b} hab heq => ?_
  have := hcmp.refl b
  rw [heq] at hab
  omega

/-- ascending lists of the same elements are the same -/
theorem Ascending.eq_of_mem (hcmp : LawfulCmp cmp) {keys' : List T} (h : Ascending cmp keys) (h' : Ascending cmp keys')
    (hmem : ∀ y, y ∈ keys ↔ y ∈ keys') : keys = keys' := by
  have hperm : keys.Perm keys' := (List.perm_ext_iff_of_nodup (h.nodup hcmp) (h'.nodup hcmp)).2 hmem
  refine hperm.eq_of_pairwise (fun a b _ _ hab hba => ?_) h h'
  have := (hcmp.swap a b).1 hab
  omega

/-- level 0 has the first element of every class, and nothing else -/
theorem Built.mem_iff (h : Built cmp keys s lv) {y : T} :
    y ∈ s.elems (lv 0) ↔ ∃ p, IsFirst cmp keys p ∧ keys[p]? = some y := by
  rw [elems, List.mem_filterMap]
  constructor
  · rintro ⟨n, hn, hv⟩
    obtain ⟨p, hp, -⟩ := Option.bind_eq_some_iff.1 hv
    exact ⟨p, (h.datum p).1 ⟨n, hn, hp⟩, by rw [← h.value_eq hp, hv]⟩
  · rintro ⟨p, hfirst, hget⟩
    obtain ⟨n, hn, hp⟩ := (h.datum p).2 hfirst
    exact ⟨n, hn, by rw [h.value_eq hp, hget]⟩

/-- **`data_list` rebuilds the elements**, also on top of some of them. -/
theorem insertKeys_eq (hcmp : LawfulCmp cmp) (h : Built cmp keys s lv) {old : List T}
    (hold : old.Sublist (s.elems (lv 0))) : insertKeys cmp old keys = s.elems (lv 0) := by
  have hfill := insertKeys_filled hcmp (h.sorted.sublist hold) keys
  have hsub : ∀ y ∈ insertKeys cmp old keys, y ∈ s.elems (lv 0) := by
    intro y hy
    rcases hfill.first y hy with hy | hy
    · exact hold.subset hy
    · exact h.mem_iff.2 hy
  refine hfill.ascending.eq_of_mem hcmp h.sorted fun y => ⟨hsub y, fun hy => ?_⟩
  obtain ⟨z, hz, hzy⟩ := hfill.represented y (h.inserted hy)
  exact h.sorted.eq_of_equal hcmp (hsub z hz) hy hzy ▸ hz

/-- the elements that the inserts add are those of `data_list` that have no equal yet -/
theorem insertKeys_length (hcmp : LawfulCmp cmp) (h : Built cmp keys s lv) {old : List T} (hasc : Ascending cmp old) :
    (insertKeys cmp old keys).length = old.length + (newTo cmp old (s.elems (lv 0))).length := by
  have hfill := insertKeys_filled hcmp hasc keys
  have hnew : ∀ y, y ∈ newTo cmp old (s.elems (lv 0)) ↔ y ∈ s.elems (lv 0) ∧ ∀ z ∈ old, cmp z y ≠ 0 := by
    intro y
    simp [newTo, List.mem_filter]
  have hnodup : (old ++ newTo cmp old (s.elems (lv 0))).Nodup := by
    refine List.nodup_append'.2 ⟨hasc.nodup hcmp, (h.sorted.nodup hcmp).filter _, fun y hy hy' => ?_⟩
    exact ((hnew y).1 hy').2 y hy (hcmp.refl y)
  have hperm : (insertKeys cmp old keys).Perm (old ++ newTo cmp old (s.elems (lv 0))) := by
    refine (List.perm_ext_iff_of_nodup (hfill.ascending.nodup hcmp) hnodup).2 fun y => ?_
    rw [List.mem_append, hnew]
    constructor
    · intro hy
      by_cases hin : y ∈ old
      · exact .inl hin
      · refine .inr ⟨h.mem_iff.2 ((hfill.first y hy).resolve_left hin), fun z hz hzy => hin ?_⟩
        exact hfill.ascending.eq_of_equal hcmp (hfill.old z hz) hy hzy ▸ hz
    · rintro (hy | ⟨hy, hno⟩)
      · exact hfill.old y hy
      · obtain ⟨z, hz, hzy⟩ := hfill.represented y (h.inserted hy)
        have hz' : z ∈ s.elems (lv 0) := h.mem_iff.2 ((hfill.first z hz).resolve_left fun hold => hno z hold hzy)
        exact h.sorted.eq_of_equal hcmp hz' hy hzy ▸ hz
  rw [hperm.length_eq, List.length_append]

/-- a run of inserts into an ascending list -/
theorem run_holds (hcmp : LawfulCmp cmp) (h : Holds s keys) (hasc : Ascending cmp keys) (xs : List (T × ℕ))
    (hheights : ∀ a ∈ xs, a.2 < L) :
    ∃ s', run (step cmp) s xs = some s' ∧ Holds s' (insertKeys cmp keys (xs.map Prod.fst)) := by
  induction xs using List.reverseRecOn with
  | nil => exact ⟨s, rfl, h⟩
  | append_singleton xs a ih =>
    obtain ⟨s', hrun, hs'⟩ := ih fun b hb => hheights b (List.mem_append_left _ hb)
    have hasc' := (insertKeys_filled hcmp hasc (xs.map Prod.fst)).ascending
    obtain ⟨s'', hins, hs''⟩ := insert_spec hcmp hs' hasc' a.1 (hheights a (by simp))
    refine ⟨s'', by rw [run_snoc, hrun]; exact hins, ?_⟩
    rw [List.map_append]
    exact (insertKeys_append _ _ _).symm ▸ hs''

/-- and into any list, under any comparison -/
theorem run_links (cmp : T → T → ℤ) (h : Rep s lv) (xs : List (T × ℕ)) (hheights : ∀ a ∈ xs, a.2 < L) :
    ∃ s' lv', run (step cmp) s xs = some s' ∧ Rep s' lv' ∧ (s.elems (lv 0)).Sublist (s'.elems (lv' 0)) ∧
      s'.size + (lv 0).length = s.size + (lv' 0).length := by
  induction xs using List.reverseRecOn with
  | nil => exact ⟨s, lv, rfl, h, List.Sublist.refl _, rfl⟩
  | append_singleton xs a ih =>
    obtain ⟨s', lv', hrun, hr, hsub, hsize⟩ := ih fun b hb => hheights b (List.mem_append_left _ hb)
    obtain ⟨s'', lv'', hins, hr', hsub', hsize'⟩ := insert_links cmp hr a.1 (hheights a (by simp))
    exact ⟨s'', lv'', by rw [run_snoc, hrun]; exact hins, hr', hsub.trans hsub', by omega⟩

end Keys

/-! ## Copies -/

section Copies

variable {cmp : T → T → ℤ} {s t : SkipList T L} {lv : ℕ → List ℕ} {heights : ℕ → ℕ}

theorem drawn_fst (xs : List T) (heights : ℕ → ℕ) : (xs.mapIdx fun i x => (x, heights i)).map Prod.fst = xs := by
  apply List.ext_getElem?
  intro i
  rw [List.getElem?_map, List.getElem?_mapIdx, Option.map_map]
  cases xs[i]? <;> rfl

theorem drawn_lt (hheights : ∀ i, heights i < L) (xs : List T) :
    ∀ a ∈ xs.mapIdx fun i x => (x, heights i), a.2 < L := by
  intro a ha
  obtain ⟨i, hi, rfl⟩ := List.mem_mapIdx.1 ha
  exact hheights i

/-- a list without nodes, whatever its `size` -/
theorem rep_uninit (uninit : ℕ) : Rep ((empty : SkipList T L).withSize uninit) fun _ => [] :=
  ⟨by simp [empty, withSize], by simp, by simp, by simp, by simp, by simp, by simp, by simp⟩

/-- what a copy inserts is represented, and counted -/
theorem insertAll_rep (hr : Rep t lv) (hle : (lv 0).length ≤ t.size) (hheights : ∀ i, heights i < L) {xs : List T}
    (hins : insertAll cmp t xs heights = some s) : ∃ lv, Rep s lv ∧ (lv 0).length ≤ s.size := by
  obtain ⟨s', lv', hrun, hr', -, hsize⟩ := run_links cmp hr _ (drawn_lt hheights xs)
  rw [insertAll, hrun, Option.some.injEq] at hins
  subst hins
  exact ⟨lv', hr', by omega⟩

/-- the lists that exist are represented, and their `size` counts every element -/
theorem Existing.rep {C : Set (T → T → ℤ)} (h : Existing C cmp s) : ∃ lv, Rep s lv ∧ (lv 0).length ≤ s.size := by
  induction h with
  | construct _ => exact ⟨_, rep_uninit 0, Nat.le_refl _⟩
  | insert _ hheight hins ih =>
    obtain ⟨lv, hr, hle⟩ := ih
    obtain ⟨s', lv', hs', hr', -, hsize⟩ := insert_links _ hr _ hheight
    rw [hs', Option.some.injEq] at hins
    subst hins
    exact ⟨lv', hr', by omega⟩
  | copyConstruct _ hheights hcopy _ =>
    exact insertAll_rep (rep_uninit _) (Nat.zero_le _) hheights hcopy
  | copyAssign _ _ hheights hcopy ih _ =>
    obtain ⟨lv, hr, hle⟩ := ih
    exact insertAll_rep hr hle hheights hcopy

theorem empty_withSize (uninit : ℕ) : (empty : SkipList T L).withSize uninit = empty.offset uninit := by
  simp [offset, empty]

theorem Built.insertAll (hcmp : LawfulCmp cmp) {u : SkipList T L} {keys xs : List T} {d : ℕ} (hb : Built cmp keys u lv)
    (hheights : ∀ i, heights i < L) (hins : insertAll cmp (u.offset d) xs heights = some s) :
    ∃ d u keys lv, s = offset u d ∧ Built cmp keys u lv := by
  obtain ⟨u', lv', hrun, hb'⟩ := hb.run hcmp _ (drawn_lt hheights xs)
  rw [SkipList.insertAll, run_offset, hrun, Option.map_some, Option.some.injEq] at hins
  exact ⟨d, u', _, lv', hins.symm, hb'⟩

/-- with one comparison, a list is what a run of inserts builds, up to its `size` -/
theorem Existing.built {cmp' : T → T → ℤ} (hcmp : LawfulCmp cmp) (h : Existing {cmp} cmp' s) :
    cmp' = cmp ∧ ∃ d u keys lv, s = offset u d ∧ Built cmp keys u lv := by
  induction h with
  | construct hc => exact ⟨hc, 0, empty, [], _, rfl, built_empty⟩
  | insert _ hheight hins ih =>
    obtain ⟨rfl, d, u, keys, lv, rfl, hb⟩ := ih
    obtain ⟨u', lv', hu', hb', -⟩ := hb.insert hcmp _ hheight
    rw [insert_offset, hu', Option.map_some, Option.some.injEq] at hins
    exact ⟨rfl, d, u', _, lv', hins.symm, hb'⟩
  | copyConstruct _ hheights hcopy ih =>
    obtain ⟨rfl, -⟩ := ih
    rw [SkipList.copyConstruct, empty_withSize] at hcopy
    exact ⟨rfl, built_empty.insertAll hcmp hheights hcopy⟩
  | copyAssign _ _ hheights hcopy ih ih' =>
    obtain ⟨rfl, d, u, keys, lv, rfl, hb⟩ := ih
    obtain ⟨rfl, -⟩ := ih'
    exact ⟨rfl, hb.insertAll hcmp hheights hcopy⟩

theorem contents_rep (h : Rep s lv) : s.contents = some (s.elems (lv 0)) := by
  rw [contents, h.heads]
  exact walk_spec (h.segs 0) (h.valued 0) (h.length_le 0)

theorem visited_rep (h : Rep s lv) : s.visited = some (if s.getSize = 0 then [] else s.elems (lv 0)) := by
  rw [visited]
  split
  · cases s.fresh <;> rfl
  · exact contents_rep h

theorem surplus_eq (h : Rep s lv) : s.surplus = s.size - (lv 0).length := by
  rw [surplus, contents_rep h, Option.getD_some, h.elems_length]

theorem copied_iff {c : SkipList T L} {lvc : ℕ → List ℕ} (h : Rep s lv) (hc : Rep c lvc) :
    Copied s c ↔ c.getSize = s.getSize ∧ (s.getSize ≠ 0 → c.elems (lvc 0) = s.elems (lv 0)) := by
  constructor
  · intro hcopied
    have hsize := hcopied.size
    have helems := hcopied.elements
    rw [visited_rep h, visited_rep hc, hsize, Option.some.injEq] at helems
    exact ⟨hsize, fun hne => by rwa [if_neg hne, if_neg hne] at helems⟩
  · rintro ⟨hsize, helems⟩
    refine ⟨hsize, ?_⟩
    rw [visited_rep h, visited_rep hc, hsize]
    split
    · rfl
    · next hne => rw [helems hne]

/-- a source: its elements, and what its `size` says too much -/
theorem Built.offset_spec {keys : List T} (hb : Built cmp keys s lv) (d : ℕ) :
    (s.offset d).contents = some (s.elems (lv 0)) ∧ (s.offset d).size = (lv 0).length + d ∧
      (s.offset d).surplus = d := by
  have hsize : (s.offset d).size = (lv 0).length + d := by rw [offset_size, hb.size_eq]
  have hsurplus : (s.offset d).surplus = d :=
    calc (s.offset d).surplus = (s.offset d).size - (lv 0).length := surplus_eq (hb.toRep.offset d)
      _ = (lv 0).length + d - (lv 0).length := by rw [hsize]
      _ = d := Nat.add_sub_cancel_left _ _
  exact ⟨contents_rep (hb.toRep.offset d), hsize, hsurplus⟩

/-- inserts into a list that is ascending in the comparison, whatever its `size` -/
theorem insertAll_keys (hcmp : LawfulCmp cmp) {c : SkipList T L} {lvt lvc : ℕ → List ℕ} (ht : Rep t lvt)
    (hsize : (lvt 0).length ≤ t.size) (hasc : Ascending cmp (t.elems (lvt 0))) (hheights : ∀ i, heights i < L)
    {keys : List T} (hrun : insertAll cmp t keys heights = some c) (hc : Rep c lvc) :
    c.elems (lvc 0) = insertKeys cmp (t.elems (lvt 0)) keys := by
  -- the target with a right `size`
  have ht₀ : Holds (t.withSize (lvt 0).length) (t.elems (lvt 0)) := ⟨lvt, ht.withSize _, rfl, (ht.elems_length 0).symm⟩
  have htd : t = (t.withSize (lvt 0).length).offset (t.size - (lvt 0).length) := by
    simp only [offset, withSize, Nat.add_sub_cancel' hsize]
  obtain ⟨c₀, hrun₀, lv₀, hr₀, helems₀, -⟩ := run_holds hcmp ht₀ hasc _ (drawn_lt hheights keys)
  rw [drawn_fst] at helems₀
  rw [insertAll, htd, run_offset, hrun₀, Option.map_some, Option.some.injEq] at hrun
  have hcontents : c.contents = some (c₀.elems (lv₀ 0)) := by
    rw [← hrun, contents_rep (hr₀.offset _)]
    rfl
  rw [contents_rep hc, Option.some.injEq] at hcontents
  rw [hcontents, helems₀]

/-- the elements of the target are among those of the source, and its `size` says as much too much -/
structure Among (s t : SkipList T L) (old keys : List T) : Prop where
  sublist : old.Sublist keys
  surplus : t.surplus % 2 ^ 64 = s.surplus % 2 ^ 64

/-- a copy onto a list whose elements are among those of the source, and the converse if the `size` of the source is not
0 modulo 2^64 -/
theorem assign_agrees_iff (hcmp : LawfulCmp cmp) {keys : List T} {d : ℕ} {u c : SkipList T L} (hb : Built cmp keys u lv)
    {lvt : ℕ → List ℕ} (ht : Rep t lvt) (hsize : (lvt 0).length ≤ t.size) (hheights : ∀ i, heights i < L)
    (hrun : copyAssign cmp t (u.offset d) heights = some c) :
    (Among (u.offset d) t (t.elems (lvt 0)) (u.elems (lv 0)) → Copied (u.offset d) c) ∧
      ((u.offset d).getSize ≠ 0 → Copied (u.offset d) c → Among (u.offset d) t (t.elems (lvt 0)) (u.elems (lv 0))) := by
  rw [copyAssign, show (u.offset d).dataList = keys from hb.dataList_eq] at hrun
  obtain ⟨-, husize, hsurplus⟩ := hb.offset_spec d
  obtain ⟨c', lvc, hrun', hc, hsub, hcount⟩ := run_links cmp ht _ (drawn_lt hheights keys)
  obtain rfl : c = c' := Option.some.inj (hrun.symm.trans hrun')
  have hlen := hb.elems_length 0
  have hlenc := hc.elems_length 0
  have htsurplus := surplus_eq ht
  have hiff := copied_iff (hb.toRep.offset d) hc
  constructor
  · rintro ⟨hold, hextra⟩
    have hall : c.elems (lvc 0) = u.elems (lv 0) := by
      rw [insertAll_keys hcmp ht hsize (hb.sorted.sublist hold) hheights hrun hc, insertKeys_eq hcmp hb hold]
    refine hiff.2 ⟨?_, fun _ => hall⟩
    rw [hall] at hlenc
    rw [hsurplus, htsurplus] at hextra
    rw [getSize, getSize, husize]
    omega
  · intro hne hcopied
    obtain ⟨hget, helems⟩ := hiff.1 hcopied
    have hall : c.elems (lvc 0) = u.elems (lv 0) := helems hne
    rw [getSize, getSize, husize] at hget
    rw [hall] at hsub hlenc
    refine ⟨hsub, ?_⟩
    rw [hsurplus, htsurplus]
    omega

/-- a target that is ascending in the comparison gets the elements that it has no equal of -/
theorem additions_eq (hcmp : LawfulCmp cmp) {keys : List T} {u c : SkipList T L} (hb : Built cmp keys u lv)
    {lvt : ℕ → List ℕ} (ht : Rep t lvt) (hsize : (lvt 0).length ≤ t.size) (hheights : ∀ i, heights i < L)
    (hrun : insertAll cmp t keys heights = some c)
    (hasc : u.elems (lv 0) = [] ∨ Ascending cmp (t.elems (lvt 0))) :
    additions cmp t (keys.mapIdx fun i x => (x, heights i)) =
      (newTo cmp (t.elems (lvt 0)) (u.elems (lv 0))).length := by
  have hadded := run_size hrun
  rcases hasc with hnil | hasc
  · -- nothing is inserted
    have hkeys : keys = [] := by
      cases keys with
      | nil => rfl
      | cons x xs =>
        have hfirst : IsFirst cmp (x :: xs) 0 := ⟨x, rfl, by simp⟩
        have hmem : x ∈ u.elems (lv 0) := hb.mem_iff.2 ⟨0, hfirst, rfl⟩
        rw [hnil] at hmem
        cases hmem
    rw [hkeys, hnil]
    rfl
  · obtain ⟨c', lvc, hrun', hc, -, hcount⟩ := run_links cmp ht _ (drawn_lt hheights keys)
    obtain rfl : c = c' := Option.some.inj (hrun.symm.trans hrun')
    have hlen := hc.elems_length 0
    rw [insertAll_keys hcmp ht hsize hasc hheights hrun hc, insertKeys_length hcmp hb hasc, ht.elems_length] at hlen
    omega

/-- a source whose `size` is 0 modulo 2^64 shows no elements: a copy must have that `size` too -/
theorem assign_zero_iff {c : SkipList T L} {lvc : ℕ → List ℕ} (hs : Rep s lv) (hc : Rep c lvc)
    (hrun : copyAssign cmp t s heights = some c) (hzero : s.getSize = 0) :
    Copied s c ↔ (t.size + additions cmp t (s.dataList.mapIdx fun i x => (x, heights i))) % 2 ^ 64 = 0 := by
  rw [copied_iff hs hc, hzero, getSize, run_size hrun]
  exact ⟨fun h => h.1, fun h => ⟨h, fun hne => absurd rfl hne⟩⟩

/-- a list that was filled by inserts exists, and `size` is right -/
theorem run_existing (hcmp : LawfulCmp cmp) (xs : List (T × ℕ)) (hheights : ∀ a ∈ xs, a.2 < L) :
    ∃ s, run (step cmp) (empty : SkipList T L) xs = some s ∧ Existing {cmp} cmp s ∧ s.surplus = 0 := by
  have hexists : ∃ s, run (step cmp) (empty : SkipList T L) xs = some s ∧ Existing {cmp} cmp s := by
    induction xs using List.reverseRecOn with
    | nil => exact ⟨empty, rfl, .construct rfl⟩
    | append_singleton xs a ih =>
      obtain ⟨s, hrun, hs⟩ := ih fun b hb => hheights b (List.mem_append_left _ hb)
      obtain ⟨lv, hr, -⟩ := hs.rep
      obtain ⟨s', -, hins, -⟩ := insert_links cmp hr a.1 (hheights a (by simp))
      exact ⟨s', by rw [run_snoc, hrun]; exact hins, hs.insert (hheights a (by simp)) hins⟩
  obtain ⟨s, hrun, hs⟩ := hexists
  obtain ⟨s', lv, hrun', hb⟩ := (built_empty (L := L)).run hcmp xs hheights
  rw [hrun, Option.some.injEq] at hrun'
  subst hrun'
  exact ⟨s, hrun, hs, by rw [surplus_eq hb.toRep, hb.size_eq, Nat.sub_self]⟩

/-- **Copies.** Both copy operations are defined, for every source with one comparison and all heights. The copy made by
the constructor has the size and the elements of the source exactly when the uninitialized `size` is what the source's
says too much, which is 0 for a source that was constructed empty. An assignment gives them when the elements of the
target are among those of the source, in the same order, and its `size` says as much too much as the source's; and
exactly then if the size of the source is not 0. A source of size 0 shows no elements, and the assignment agrees exactly
when the size of the target and the number of the elements that it adds are 0 modulo 2^64; these are the elements that
are new to the target, if it was built with the comparison of the source. -/
theorem copy_iff (hcmp : LawfulCmp cmp) (hs : Existing {cmp} cmp s) (hheights : ∀ i, heights i < L) :
    ∃ keys, s.contents = some keys ∧
      (∀ uninit, ∃ c, copyConstruct uninit cmp s heights = some c ∧
        (Copied s c ↔ uninit % 2 ^ 64 = s.surplus % 2 ^ 64)) ∧
      ∀ (cmp' : T → T → ℤ) (t : SkipList T L), Existing Set.univ cmp' t →
        ∃ old c, t.contents = some old ∧ copyAssign cmp t s heights = some c ∧
          (Among s t old keys → Copied s c) ∧
          (s.getSize ≠ 0 → (Copied s c ↔ Among s t old keys)) ∧
          (s.getSize = 0 → (Copied s c ↔
            (t.size + additions cmp t (s.dataList.mapIdx fun i x => (x, heights i))) % 2 ^ 64 = 0)) ∧
          (keys = [] ∨ Existing {cmp} cmp t →
            additions cmp t (s.dataList.mapIdx fun i x => (x, heights i)) = (newTo cmp old keys).length) := by
  obtain ⟨-, d, u, keys, lv, rfl, hb⟩ := hs.built hcmp
  have hsurplus := (hb.offset_spec d).2.2
  refine ⟨_, (hb.offset_spec d).1, fun uninit => ?_, fun cmp' t ht => ?_⟩
  · have hr := rep_uninit (T := T) (L := L) uninit
    obtain ⟨c, lvc, hrun, hc, -, hcount⟩ := run_links cmp hr _ (drawn_lt hheights (u.offset d).dataList)
    refine ⟨c, hrun, ?_⟩
    -- nothing is there before, so every element is inserted
    have hdata : (u.offset d).dataList = keys := hb.dataList_eq
    have hrun' : insertAll cmp ((empty : SkipList T L).withSize uninit) keys heights = some c := hdata ▸ hrun
    have hall : c.elems (lvc 0) = u.elems (lv 0) := by
      rw [insertAll_keys hcmp hr (Nat.zero_le _) List.Pairwise.nil hheights hrun' hc]
      exact insertKeys_eq hcmp hb (List.nil_sublist _)
    have hlen : (lvc 0).length = (lv 0).length := by rw [← hc.elems_length, hall, hb.elems_length]
    have hcsize : c.size = uninit + (lv 0).length := hlen ▸ hcount
    rw [copied_iff (hb.toRep.offset d) hc, getSize, getSize, hcsize, (hb.offset_spec d).2.1, hsurplus]
    constructor
    · rintro ⟨hget, -⟩
      omega
    · intro hget
      exact ⟨by omega, fun _ => hall⟩
  · obtain ⟨lvt, hr, hle⟩ := ht.rep
    obtain ⟨c, lvc, hrun, hc, -⟩ := run_links cmp hr _ (drawn_lt hheights (u.offset d).dataList)
    obtain ⟨hcopied, hamong⟩ := assign_agrees_iff hcmp hb hr hle hheights hrun
    have hdata : (u.offset d).dataList = keys := hb.dataList_eq
    refine ⟨_, c, contents_rep hr, hrun, hcopied, fun hne => ⟨hamong hne, hcopied⟩,
      assign_zero_iff (hb.toRep.offset d) hc hrun, fun hsame => ?_⟩
    have hrun' : insertAll cmp t keys heights = some c := hdata ▸ hrun
    rw [hdata]
    apply additions_eq hcmp hb hr hle hheights hrun'
    refine hsame.imp_right fun hexists => ?_
    obtain ⟨-, e, w, keys', lvw, rfl, hbw⟩ := hexists.built hcmp
    have helems : (w.offset e).elems (lvt 0) = w.elems (lvw 0) :=
      Option.some.inj ((contents_rep hr).symm.trans (hbw.offset_spec e).1)
    exact helems ▸ hbw.sorted

/-- two elements, copied into a list whose `size` was 0 and assigned to an empty one -/
theorem copy_iff_two :
    ∃ s c c', run (step fun a b : ℤ => a - b) (empty : SkipList ℤ 4) [(3, 2), (1, 0)] = some s ∧
      copyConstruct 0 (fun a b => a - b) s (fun _ => 1) = some c ∧ Copied s c ∧
      copyAssign (fun a b => a - b) empty s (fun _ => 1) = some c' ∧ Copied s c' := by
  obtain ⟨s, hrun, hs, hsurplus⟩ := run_existing (L := 4) lawful_sub [(3, 2), (1, 0)] (by decide)
  obtain ⟨keys, -, hconstruct, hassign⟩ := copy_iff lawful_sub hs (fun _ => by decide : ∀ _, 1 < 4)
  obtain ⟨c, hc, hiff⟩ := hconstruct 0
  obtain ⟨old, c', hold, hc', hcopied, -⟩ := hassign (fun a b => a - b) empty (.construct trivial)
  have hnil : old = [] := (Option.some.inj hold).symm
  have hsub : old.Sublist keys := hnil ▸ List.nil_sublist keys
  exact ⟨s, c, c', hrun, hc, hiff.2 (by rw [hsurplus]), hc', hcopied ⟨hsub, by rw [hsurplus]; rfl⟩⟩

/-- **What a copy keeps.** One element, copied: `get_size()` of a list whose `size` was 7 before is 8, and a list that
had another element still has it. -/
theorem copy_keeps :
    ∃ s t c c', run (step fun a b : ℤ => a - b) (empty : SkipList ℤ 4) [(1, 0)] = some s ∧
      run (step fun a b : ℤ => a - b) (empty : SkipList ℤ 4) [(2, 0)] = some t ∧
      copyConstruct 7 (fun a b => a - b) s (fun _ => 0) = some c ∧ c.getSize = 8 ∧ ¬ Copied s c ∧
      copyAssign (fun a b => a - b) t s (fun _ => 0) = some c' ∧ c'.visited = some [1, 2] ∧ ¬ Copied s c' := by
  refine ⟨_, _, _, _, rfl, rfl, rfl, rfl, fun h => ?_, rfl, rfl, fun h => ?_⟩
  · exact absurd h.size (by decide)
  · exact absurd h.elements (by decide)

end Copies

end K23Search.SkipList
