/-
`insert` into a `qs::skip_list` under a comparison the list was not ordered by, which copy assignment does.

The search of `insert_node` looks at elements only, and the nodes of a tower have the same one. So on every level it
stops in front of a node that is not below `x`, or at the end, behind a node that is below or at the head (`Place`), and
the places on two levels that follow each other are nested whatever the order (`next_place`).

Results:
- `insert_links`: under any comparison `insert` is defined and keeps the representation. The old elements stay in their
  order, and the size counts what is linked.
-/
import K23Search.Containers.SkipList
import Mathlib.Data.List.TakeWhile
import Mathlib.Data.Option.Basic

namespace K23Search.SkipList

open K23Search.Lib

variable {T : Type} {L : ℕ}

/-! ## Nested lists -/

section Sublist

variable {α : Type} {a : α} {us vs xs ys : List α}

/-- a list nested in one without duplicates is nested on both sides of a common element -/
theorem sublist_at (hnd : (xs ++ a :: ys).Nodup) (h : (us ++ a :: vs).Sublist (xs ++ a :: ys)) :
    us.Sublist xs ∧ vs.Sublist ys := by
  induction xs generalizing us with
  | nil =>
    have ha : a ∉ ys := (List.nodup_cons.1 hnd).1
    cases us with
    | nil => exact ⟨List.Sublist.refl _, List.cons_sublist_cons.1 h⟩
    | cons u us =>
      have hmem : a ∈ us ++ a :: vs := by simp
      cases h with
      | cons _ h => exact absurd (h.subset (List.mem_cons_of_mem _ hmem)) ha
      | cons_cons _ h => exact absurd (h.subset hmem) ha
  | cons x xs ih =>
    obtain ⟨hx, hnd⟩ := List.nodup_cons.1 hnd
    cases us with
    | nil =>
      cases h with
      | cons _ h =>
        have h' : ([] ++ a :: vs).Sublist (xs ++ a :: ys) := h
        exact ⟨List.nil_sublist _, (ih hnd h').2⟩
      | cons_cons _ h => exact absurd (by simp) hx
    | cons u us =>
      cases h with
      | cons _ h =>
        have h' : (u :: us ++ a :: vs).Sublist (xs ++ a :: ys) := h
        exact ⟨(ih hnd h').1.cons x, (ih hnd h').2⟩
      | cons_cons _ h => exact ⟨(ih hnd h).1.cons_cons x, (ih hnd h).2⟩

/-- a nested list that starts after `xs` is nested in what comes after it -/
theorem sublist_after (h : vs.Sublist (xs ++ ys)) (hv : ∀ a, vs.head? = some a → a ∉ xs) : vs.Sublist ys := by
  obtain ⟨ls, rs, rfl, hl, hr⟩ := List.sublist_append_iff.1 h
  cases ls with
  | nil => exact hr
  | cons a ls => exact absurd (hl.subset List.mem_cons_self) (hv a rfl)

end Sublist

/-! ## Places -/

section Place

variable {cmp : T → T → ℤ} {s : SkipList T L} {lv : ℕ → List ℕ} {x : T} {i : ℕ} {as bs : List ℕ}

/-- the level `l` is cut in front of a node that is not below `x` and behind one that is -/
structure Place (cmp : T → T → ℤ) (s : SkipList T L) (x : T) (l as bs : List ℕ) : Prop where
  eq : l = as ++ bs
  last_below : ∀ n, as.getLast? = some n → s.isBelow cmp x n = true
  head_not_below : ∀ n, bs.head? = some n → s.isBelow cmp x n = false

/-- the two parts of a level are nested in those of the level below it -/
def Over (s : SkipList T L) (as bs as' bs' : List ℕ) : Prop :=
  (as.map s.bottom).Sublist (as'.map some) ∧ (bs.map s.bottom).Sublist (bs'.map some)

theorem Place.prev (h : Rep s lv) {n : ℕ} (hp : Place cmp s x (lv i) as (n :: bs)) : s.prev n = as.getLast? := by
  have hseg := h.segs i
  rw [hp.eq] at hseg
  simpa using (seg_at hseg).1

/-- a scan that enters a level at its head, or at a node below `x`, stops at a place -/
theorem scan_place (cmp : T → T → ℤ) (x : T) (h : Rep s lv) {as₁ as₂ : List ℕ} (hlv : lv i = as₁ ++ as₂)
    (henter : as₁ = [] ∨ ∃ n, as₂.head? = some n ∧ s.isBelow cmp x n = true) :
    Place cmp s x (lv i) (as₁ ++ as₂.takeWhile (s.isBelow cmp x)) (as₂.dropWhile (s.isBelow cmp x)) ∧
      scan cmp s x s.fresh as₂.head? =
        some (outcome cmp s x (as₁ ++ as₂.takeWhile (s.isBelow cmp x)) (as₂.dropWhile (s.isBelow cmp x))) := by
  have hcut : as₂.takeWhile (s.isBelow cmp x) ++ as₂.dropWhile (s.isBelow cmp x) = as₂ :=
    List.takeWhile_append_dropWhile
  have hbelow : ∀ n ∈ as₂.takeWhile (s.isBelow cmp x), s.isBelow cmp x n = true := fun n hn => List.mem_takeWhile_imp hn
  have hnot : ∀ n, (as₂.dropWhile (s.isBelow cmp x)).head? = some n → s.isBelow cmp x n = false := by
    intro n hn
    have := List.head?_dropWhile_not (s.isBelow cmp x) as₂
    rw [hn] at this
    simpa using this
  have hlast : (as₁ ++ as₂.takeWhile (s.isBelow cmp x)).getLast? = (as₂.takeWhile (s.isBelow cmp x)).getLast? := by
    rcases henter with rfl | ⟨n, hn, hb⟩
    · rw [List.nil_append]
    · obtain ⟨l, rfl⟩ := List.head?_eq_some_iff.1 hn
      rw [List.getLast?_append_of_ne_nil]
      simp [hb]
  have hseg := h.segs i
  rw [hlv, seg_append] at hseg
  have hlen := h.length_le i
  rw [hlv, List.length_append] at hlen
  have hval : ∀ n ∈ as₂, ∃ y, s.value n = some y :=
    fun n hn => h.valued i n (by rw [hlv]; exact List.mem_append_right _ hn)
  refine ⟨⟨?_, fun n hn => ?_, hnot⟩, ?_⟩
  · rw [List.append_assoc, hcut, hlv]
  · rw [hlast] at hn
    exact hbelow n (List.mem_of_getLast? hn)
  · have hscan : scan cmp s x s.fresh as₂.head? =
        some (outcome cmp s x (as₂.takeWhile (s.isBelow cmp x)) (as₂.dropWhile (s.isBelow cmp x))) := by
      rw [← hcut] at hseg hval hlen
      rw [List.length_append] at hlen
      conv_lhs => rw [← hcut]
      exact scan_spec hseg.2 hval hbelow hnot (by rw [List.length_append]; omega)
    rw [hscan]
    cases hd : as₂.dropWhile (s.isBelow cmp x) with
    | nil => rw [outcome, outcome, hlast]
    | cons n bs => rfl

/-- the node below a node that is not below `x` is not either -/
theorem isBelow_bottom (cmp : T → T → ℤ) (x : T) (h : Rep s lv) {n b : ℕ} (hn : n ∈ lv (i + 1))
    (hb : s.bottom n = some b) : b ∈ lv i ∧ s.isBelow cmp x b = s.isBelow cmp x n := by
  obtain ⟨c, hc, hcn, hv⟩ := h.bottom_mem hn
  rw [hb, Option.some.injEq] at hcn
  rw [hcn, isBelow, hv, isBelow]
  exact ⟨hc, rfl⟩

/-- the first node that is not below `x` stands on one that is not below it -/
theorem Place.stop (h : Rep s lv) (hp : Place cmp s x (lv (i + 1)) as bs) {l : List ℕ}
    (hl : (bs.map s.bottom).Sublist (l.map some)) :
    (bs.map s.bottom).Sublist ((l.dropWhile (s.isBelow cmp x)).map some) := by
  have hcut : l.map some = (l.takeWhile (s.isBelow cmp x)).map some ++ (l.dropWhile (s.isBelow cmp x)).map some := by
    rw [← List.map_append, List.takeWhile_append_dropWhile]
  rw [hcut] at hl
  refine sublist_after hl fun o ho hmem => ?_
  rw [List.head?_map, Option.map_eq_some_iff] at ho
  obtain ⟨n, hn, rfl⟩ := ho
  obtain ⟨b, hb, hbn⟩ := List.mem_map.1 hmem
  have hlevel : n ∈ lv (i + 1) := by
    rw [hp.eq]
    exact List.mem_append_right _ (List.mem_of_mem_head? hn)
  have heq := (isBelow_bottom cmp x h hlevel hbn.symm).2
  rw [List.mem_takeWhile_imp hb, hp.head_not_below n hn] at heq
  cases heq

/-- **The next level down** has a place inside the place above it, and the scan of `insert_node` stops there. -/
theorem next_place (h : Rep s lv) (hp : Place cmp s x (lv (i + 1)) as bs) :
    ∃ as' bs', Place cmp s x (lv i) as' bs' ∧ Over s as bs as' bs' ∧
      scan cmp s x s.fresh (s.descend i as.getLast?) = some (outcome cmp s x as' bs') := by
  have hnest := h.nested i
  rw [hp.eq] at hnest
  cases hlast : as.getLast? with
  | none =>
    rw [List.getLast?_eq_none_iff] at hlast
    subst hlast
    obtain ⟨hplace, hscan⟩ := scan_place cmp x h (by rw [List.nil_append] : lv i = [] ++ lv i) (.inl rfl)
    refine ⟨_, _, hplace, ⟨by simp, hp.stop h (by simpa using hnest)⟩, ?_⟩
    rw [descend, h.heads]
    exact hscan
  | some p =>
    obtain ⟨as₀, rfl⟩ := List.getLast?_eq_some_iff.1 hlast
    have hlevel : p ∈ lv (i + 1) := by
      rw [hp.eq]
      simp
    obtain ⟨b, -, hb, -⟩ := h.bottom_mem hlevel
    obtain ⟨hmem, heq⟩ := isBelow_bottom cmp x h hlevel hb
    have hbelow := heq.trans (hp.last_below p hlast)
    obtain ⟨as₁, rest, hlv⟩ := List.append_of_mem hmem
    obtain ⟨hplace, hscan⟩ := scan_place cmp x h hlv (.inr ⟨b, rfl, hbelow⟩)
    have hnd : (as₁.map some ++ some b :: rest.map some).Nodup := by
      have := (h.nodup i).map (Option.some_injective ℕ)
      rwa [hlv, List.map_append, List.map_cons] at this
    rw [hlv, List.append_assoc, List.map_append, List.map_append, List.map_append, List.map_singleton, hb,
      List.singleton_append, List.map_cons] at hnest
    obtain ⟨hl, hr⟩ := sublist_at hnd hnest
    rw [List.takeWhile_cons_of_pos hbelow, List.dropWhile_cons_of_pos hbelow] at hplace hscan
    refine ⟨_, _, hplace, ⟨?_, hp.stop h hr⟩, ?_⟩
    · rw [List.map_append, List.map_append, List.map_singleton, hb, List.map_cons]
      exact hl.append ((List.nil_sublist _).cons_cons _)
    · rw [descend, hb]
      exact hscan

end Place

/-! ## The descent -/

section Descent

variable {cmp : T → T → ℤ} {s : SkipList T L} {lv : ℕ → List ℕ} {x : T} {i : ℕ} {start : Option ℕ}

/-- above level 0 `insert_node` ends at an equal element, or writes the place into the path and goes down -/
theorem insertNode_down (h : Rep s lv) {as bs : List ℕ} (hp : Place cmp s x (lv (i + 1)) as bs)
    (hscan : scan cmp s x s.fresh start = some (outcome cmp s x as bs)) (data height : ℕ) (path : Path) :
    insertNode cmp s data x height (i + 1) path start = some s ∨
    insertNode cmp s data x height (i + 1) path start = insertNode cmp s data x height i
      (Function.update path (i + 1) (some as.getLast?)) (s.descend i as.getLast?) := by
  cases start with
  | none =>
    -- an empty level
    rw [scan, Option.some.injEq] at hscan
    cases bs with
    | nil =>
      cases hl : as.getLast? with
      | none => exact .inr rfl
      | some n => rw [outcome, hl] at hscan; cases hscan
    | cons n bs =>
      rw [outcome] at hscan
      split at hscan <;> cases hscan
  | some start =>
    simp only [insertNode, hscan, Option.bind_some]
    cases bs with
    | nil =>
      cases hl : as.getLast? with
      | none => exact .inl (by simp only [outcome, hl, Option.elim_none])
      | some n => exact .inr (by simp only [outcome, hl, Option.elim_some, descend])
    | cons n bs =>
      by_cases heq : s.isEqual cmp x n = true
      · exact .inl (by simp only [outcome, if_pos heq])
      · exact .inr (by simp only [outcome, if_neg heq, hp.prev h])

/-- on level 0 it links the new nodes, unless it ends at an equal element -/
theorem insertNode_ground (h : Rep s lv) {as bs : List ℕ} (hp : Place cmp s x (lv 0) as bs)
    (hscan : scan cmp s x s.fresh start = some (outcome cmp s x as bs)) (data height : ℕ) (path : Path) :
    insertNode cmp s data x height 0 path start = some s ∨
    insertNode cmp s data x height 0 path start =
      insertWithPath s data (Function.update path 0 (some as.getLast?)) height := by
  simp only [insertNode, hscan, Option.bind_some]
  cases bs with
  | nil =>
    cases hl : as.getLast? with
    | none => exact .inl (by simp only [outcome, hl, Option.elim_none])
    | some n => exact .inr (by simp only [outcome, hl, Option.elim_some])
  | cons n bs =>
    by_cases heq : s.isEqual cmp x n = true
    · exact .inl (by simp only [outcome, if_pos heq])
    · exact .inr (by simp only [outcome, if_neg heq, hp.prev h])

/-- from level `i` on the path has places, each over the next -/
structure Route (cmp : T → T → ℤ) (s : SkipList T L) (lv : ℕ → List ℕ) (x : T) (as bs : ℕ → List ℕ) (path : Path)
    (i : ℕ) : Prop where
  place : ∀ j, i ≤ j → j < L → Place cmp s x (lv j) (as j) (bs j)
  path_eq : ∀ j, i ≤ j → j < L → path j = some (as j).getLast?
  nested : ∀ j, i ≤ j → j + 1 < L → Over s (as (j + 1)) (bs (j + 1)) (as j) (bs j)

theorem Route.write {as bs : ℕ → List ℕ} {path : Path} (h : Route cmp s lv x as bs path (i + 1)) {as' bs' : List ℕ}
    (hp : Place cmp s x (lv i) as' bs') (ho : i + 1 < L → Over s (as (i + 1)) (bs (i + 1)) as' bs') :
    Route cmp s lv x (Function.update as i as') (Function.update bs i bs')
      (Function.update path i (some as'.getLast?)) i := by
  constructor
  case place =>
    intro j hij hj
    by_cases hji : j = i
    · rw [hji, Function.update_self, Function.update_self]
      exact hp
    · rw [Function.update_of_ne hji, Function.update_of_ne hji]
      exact h.place j (by omega) hj
  case path_eq =>
    intro j hij hj
    by_cases hji : j = i
    · rw [hji, Function.update_self, Function.update_self]
    · rw [Function.update_of_ne hji, Function.update_of_ne hji]
      exact h.path_eq j (by omega) hj
  case nested =>
    intro j hij hj
    have hup : j + 1 ≠ i := by omega
    rw [Function.update_of_ne hup, Function.update_of_ne hup]
    by_cases hji : j = i
    · subst hji
      rw [Function.update_self, Function.update_self]
      exact ho hj
    · rw [Function.update_of_ne hji, Function.update_of_ne hji]
      exact h.nested j (by omega) hj

/-- the descent from level `i` completes the route, unless it meets an equal element -/
theorem insertNode_route (h : Rep s lv) (data height : ℕ) {as bs : ℕ → List ℕ} {path : Path} {as' bs' : List ℕ}
    (hr : Route cmp s lv x as bs path (i + 1)) (hp : Place cmp s x (lv i) as' bs')
    (ho : i + 1 < L → Over s (as (i + 1)) (bs (i + 1)) as' bs')
    (hscan : scan cmp s x s.fresh start = some (outcome cmp s x as' bs')) :
    insertNode cmp s data x height i path start = some s ∨
    ∃ as bs path', Route cmp s lv x as bs path' 0 ∧
      insertNode cmp s data x height i path start = insertWithPath s data path' height := by
  have hwrite := hr.write hp ho
  induction i generalizing start as bs path as' bs' with
  | zero =>
    cases insertNode_ground h hp hscan data height path with
    | inl hend => exact .inl hend
    | inr hlink => exact .inr ⟨_, _, _, hwrite, hlink⟩
  | succ i ih =>
    cases insertNode_down h hp hscan data height path with
    | inl hend => exact .inl hend
    | inr hdown =>
      obtain ⟨as₂, bs₂, hp₂, ho₂, hscan₂⟩ := next_place h hp
      rw [hdown]
      have hover : i + 1 < L → Over s (Function.update as (i + 1) as' (i + 1)) (Function.update bs (i + 1) bs' (i + 1))
          as₂ bs₂ := by
        intro _
        rw [Function.update_self, Function.update_self]
        exact ho₂
      exact ih hwrite hp₂ hover hscan₂ (hwrite.write hp₂ hover)

/-- a route is a cut of the levels that get a new node -/
theorem Route.cuts {as bs : ℕ → List ℕ} {path : Path} (h : Route cmp s lv x as bs path 0) {k : ℕ} (hk : k ≤ L) :
    Cuts s lv as bs k :=
  ⟨fun i hi => (h.place i (Nat.zero_le i) (by omega)).eq, fun i hi => h.nested i (Nat.zero_le i) (by omega)⟩

/-- new nodes between the parts of every level -/
theorem LinkedAt.keeps {as bs : ℕ → List ℕ} {data k : ℕ} {s' : SkipList T L} (hr : Rep s lv) (hk : 0 < k)
    (hlv : lv 0 = as 0 ++ bs 0) (hdata : s.dataList[data]? = some x) (h : LinkedAt s lv as bs data k s') :
    (s.elems (lv 0)).Sublist (s'.elems (linkedAt s lv as bs k 0)) ∧
      (linkedAt s lv as bs k 0).length = (lv 0).length + 1 := by
  refine ⟨?_, ?_⟩
  · rw [h.elems_eq hr hk hlv hdata, hlv]
    have hsplit : s.elems (as 0 ++ bs 0) = s.elems (as 0) ++ s.elems (bs 0) := List.filterMap_append
    rw [hsplit]
    exact (List.Sublist.refl _).append (List.sublist_cons_self _ _)
  · rw [linkedAt, if_pos hk, hlv]
    simp only [List.length_append, List.length_cons]
    omega

end Descent

/-- **Insertion under any comparison** is defined for every height below `L` and keeps the representation. The old
elements stay in their order, and what is linked is counted. -/
theorem insert_links (cmp : T → T → ℤ) {s : SkipList T L} {lv : ℕ → List ℕ} (h : Rep s lv) (x : T) {height : ℕ}
    (hheight : height < L) :
    ∃ s' lv', insert cmp s x height = some s' ∧ Rep s' lv' ∧ (s.elems (lv 0)).Sublist (s'.elems (lv' 0)) ∧
      s'.size + (lv 0).length = s.size + (lv' 0).length := by
  have hr := h.append x
  have hdata : (s.append x).dataList[s.dataList.length]? = some x := by simp [SkipList.append]
  have hnodes : s.nodes 0 = (lv 0).head? := h.heads 0
  rw [← h.append_elems x 0, insert]
  by_cases h0 : s.nodes 0 = none
  · have hlv0 : lv 0 = [] := List.head?_eq_none_iff.1 (hnodes.symm.trans h0)
    obtain ⟨hl, -⟩ := firstLevels_cuts hr hlv0 hdata (height + 1)
    obtain ⟨hsub, hlen⟩ := hl.keeps hr (Nat.succ_pos height) hlv0 hdata
    have hsize := hl.size_eq
    refine ⟨_, _, if_pos h0, hl.toRep.grow, hsub, ?_⟩
    rw [hlen, SkipList.grow, hsize, SkipList.append]
    simp only
    omega
  · have h0' : ¬ (s.append x).nodes 0 = none := h0
    rw [if_neg h0']
    obtain ⟨hplace, hscan⟩ := scan_place cmp x hr (by rw [List.nil_append] : lv (L - 1) = [] ++ lv (L - 1)) (.inl rfl)
    rw [← hr.heads] at hscan
    have hroute : Route cmp (s.append x) lv x (fun _ => []) (fun _ => []) (fun _ => none) (L - 1 + 1) :=
      ⟨fun j hj hjL => by omega, fun j hj hjL => by omega, fun j hj hjL => by omega⟩
    cases insertNode_route hr s.dataList.length height hroute hplace (fun hlt => by omega) hscan with
    | inl hend => exact ⟨_, lv, hend, hr, List.Sublist.refl _, rfl⟩
    | inr hpath =>
      obtain ⟨as, bs, path, hfull, hins⟩ := hpath
      have hcuts := hfull.cuts (Nat.succ_le_of_lt hheight)
      obtain ⟨t, hlinks, hl, -⟩ := linkLevels_cuts hr hdata hcuts
        fun j hj => hfull.path_eq j (Nat.zero_le j) (by omega)
      obtain ⟨hsub, hlen⟩ := hl.keeps hr (Nat.succ_pos height) (hcuts.eq 0 (Nat.succ_pos height)) hdata
      have hsize := hl.size_eq
      refine ⟨t.grow, _, by rw [hins, insertWithPath, hlinks, Option.map_some], hl.toRep.grow, hsub, ?_⟩
      rw [hlen, SkipList.grow, hsize, SkipList.append]
      simp only
      omega

end K23Search.SkipList
