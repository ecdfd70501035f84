/-
Trees of points in a metric space whose edges carry distances (Burkhard-Keller trees), given by their child relation.

- `Forest`: parents are unique and a rank grows along edges; then subtrees of siblings are apart (`Forest.apart`);
- `Worklist`: the invariant of a depth-first search that keeps a list of subtrees still to be looked at and may drop a
  subtree in which nothing is wanted (`Worklist.step`); when the list is empty everything wanted was seen;
- `MetricOn`: a partial distance that is defined and a metric on a set of points; `window`: the triangle inequality in
  the form that drops subtrees.
-/
import Mathlib.Data.List.Nodup
import Mathlib.Data.Set.Defs
import Mathlib.Logic.Relation
import Mathlib.Data.Int.Notation

namespace K23Search.Lib

/-! ## Forests -/

section Forest

variable {P : Type*}

/-- `i` is in the subtree of `p` -/
abbrev Desc (child : P → P → Prop) : P → P → Prop := Relation.ReflTransGen child

structure Forest (child : P → P → Prop) (rank : P → ℕ) : Prop where
  parent_unique : ∀ p p' c, child p c → child p' c → p = p'
  rank_lt : ∀ p c, child p c → rank p < rank c

variable {child : P → P → Prop} {rank : P → ℕ}

theorem Forest.rank_le (h : Forest child rank) {p i : P} (hd : Desc child p i) : rank p ≤ rank i := by
  induction hd with
  | refl => exact Nat.le_refl _
  | tail _ hc ih => exact Nat.le_trans ih (Nat.le_of_lt (h.rank_lt _ _ hc))

/-- a subtree that reaches below a child, and is not the child's own, contains the parent -/
theorem Forest.desc_parent (h : Forest child rank) {a p c : P} (hd : Desc child a c) (hne : a ≠ c) (hc : child p c) :
    Desc child a p := by
  cases hd with
  | refl => exact absurd rfl hne
  | tail hd hc' => rwa [h.parent_unique _ _ _ hc hc']

/-- two subtrees with a common point are nested -/
theorem Forest.nested (h : Forest child rank) {a b i : P} (ha : Desc child a i) (hb : Desc child b i) :
    Desc child a b ∨ Desc child b a := by
  induction ha with
  | refl => exact .inr hb
  | tail ha hc ih =>
    cases hb with
    | refl => exact .inl (ha.tail hc)
    | tail hb hc' =>
      rw [h.parent_unique _ _ _ hc' hc] at hb
      exact ih hb

/-- the subtrees of two children of one point are apart -/
theorem Forest.apart (h : Forest child rank) {p c c' i : P} (hc : child p c) (hc' : child p c') (hne : c ≠ c')
    (hi : Desc child c i) (hi' : Desc child c' i) : False := by
  have hcycle : ∀ a b, child p a → child p b → a ≠ b → Desc child a b → False := by
    intro a b ha hb hab hd
    have := h.rank_le (h.desc_parent hd hab hb)
    have := h.rank_lt p a ha
    omega
  cases h.nested hi hi' with
  | inl hd => exact hcycle c c' hc hc' hne hd
  | inr hd => exact hcycle c' c hc' hc hne.symm hd

end Forest

/-! ## Search -/

section Worklist

variable {P : Type*} {child : P → P → Prop} {rank : P → ℕ} {want : P → Prop} {seen todo : List P}

/-- the points seen so far, and the roots of the subtrees still to be looked at -/
structure Worklist (child : P → P → Prop) (want : P → Prop) (seen todo : List P) : Prop where
  nodup : seen.Nodup
  todo_nodup : todo.Nodup
  unseen : ∀ s ∈ todo, ∀ i, Desc child s i → i ∉ seen
  apart : ∀ s ∈ todo, ∀ s' ∈ todo, s ≠ s' → ∀ i, Desc child s i → ¬ Desc child s' i
  covers : ∀ i, want i → i ∈ seen ∨ ∃ s ∈ todo, Desc child s i

theorem Worklist.init {root : P} (h : ∀ i, want i → Desc child root i) : Worklist child want [] [root] where
  nodup := List.nodup_nil
  todo_nodup := List.nodup_singleton root
  unseen := by simp
  apart := by
    intro s hs s' hs' hne
    rw [List.mem_singleton] at hs hs'
    exact absurd (hs.trans hs'.symm) hne
  covers := fun i hi => .inr ⟨root, List.mem_singleton_self root, h i hi⟩

/-- nothing to look at: everything wanted was seen -/
theorem Worklist.done (h : Worklist child want seen []) {i : P} (hi : want i) : i ∈ seen := by
  cases h.covers i hi with
  | inl hs => exact hs
  | inr hs => obtain ⟨s, hs, -⟩ := hs; cases hs

/-- **One turn of the search**: look at `p` and put off the children `cs`, when nothing is wanted below the others -/
theorem Worklist.step (hf : Forest child rank) {p : P} {cs : List P} (h : Worklist child want seen (todo ++ [p]))
    (hnd : cs.Nodup) (hcs : ∀ c ∈ cs, child p c)
    (hdrop : ∀ c, child p c → c ∉ cs → ∀ i, Desc child c i → ¬ want i) :
    Worklist child want (seen ++ [p]) (todo ++ cs) := by
  have hp : p ∈ todo ++ [p] := List.mem_append_right _ (List.mem_singleton_self p)
  have htodo : ∀ s ∈ todo, s ∈ todo ++ [p] := fun s hs => List.mem_append_left _ hs
  have hne : ∀ s ∈ todo, s ≠ p := by
    intro s hs hsp
    exact List.nodup_append.1 h.todo_nodup |>.2.2 s hs p (List.mem_singleton_self p) hsp
  -- what is below a child is below `p`, and is not `p`
  have hbelow : ∀ c ∈ cs, ∀ i, Desc child c i → Desc child p i := fun c hc i hi => .head (hcs c hc) hi
  have hproper : ∀ c ∈ cs, ∀ i, Desc child c i → i ≠ p := by
    intro c hc i hi hip
    have := hf.rank_le hi
    have := hf.rank_lt p c (hcs c hc)
    rw [hip] at *
    omega
  have hcross : ∀ s ∈ todo, ∀ c ∈ cs, ∀ i, Desc child s i → ¬ Desc child c i := fun s hs c hc i hsi hci =>
    h.apart s (htodo s hs) p hp (hne s hs) i hsi (hbelow c hc i hci)
  constructor
  case nodup =>
    refine List.nodup_append.2 ⟨h.nodup, List.nodup_singleton p, fun a ha b hb hab => ?_⟩
    rw [List.mem_singleton] at hb
    exact h.unseen p hp p .refl (hb ▸ hab ▸ ha)
  case todo_nodup =>
    refine List.nodup_append.2 ⟨(List.nodup_append.1 h.todo_nodup).1, hnd, fun s hs c hc hsc => ?_⟩
    exact hcross s hs c hc s .refl (hsc ▸ .refl)
  case unseen =>
    intro s hs i hi
    rw [List.mem_append, List.mem_singleton, not_or]
    cases List.mem_append.1 hs with
    | inl hs =>
      refine ⟨h.unseen s (htodo s hs) i hi, fun hip => ?_⟩
      exact h.apart s (htodo s hs) p hp (hne s hs) i hi (hip ▸ .refl)
    | inr hs => exact ⟨h.unseen p hp i (hbelow s hs i hi), hproper s hs i hi⟩
  case apart =>
    intro s hs s' hs' hss i hi hi'
    cases List.mem_append.1 hs with
    | inl hs => cases List.mem_append.1 hs' with
      | inl hs' => exact h.apart s (htodo s hs) s' (htodo s' hs') hss i hi hi'
      | inr hs' => exact hcross s hs s' hs' i hi hi'
    | inr hs => cases List.mem_append.1 hs' with
      | inl hs' => exact hcross s' hs' s hs i hi' hi
      | inr hs' => exact hf.apart (hcs s hs) (hcs s' hs') hss hi hi'
  case covers =>
    intro i hi
    rcases h.covers i hi with hs | ⟨s, hs, hsi⟩
    · exact .inl (List.mem_append_left _ hs)
    · rcases List.mem_append.1 hs with hs | hs
      · exact .inr ⟨s, List.mem_append_left _ hs, hsi⟩
      · rw [List.mem_singleton.1 hs] at hsi
        rcases hsi.cases_head with rfl | ⟨c, hc, hci⟩
        · exact .inl (List.mem_append_right _ (List.mem_singleton_self p))
        · by_cases hmem : c ∈ cs
          · exact .inr ⟨c, List.mem_append_right _ hmem, hci⟩
          · exact absurd hi (hdrop c hc hmem i hci)

end Worklist

/-! ## Metrics -/

section Metric

variable {W : Type*} {S : Set W} {dist : W → W → Option ℤ} {d : W → W → ℤ}

/-- on the points of `S`, `dist` is defined, and its value `d` is a metric -/
structure MetricOn (S : Set W) (dist : W → W → Option ℤ) (d : W → W → ℤ) : Prop where
  defined : ∀ a ∈ S, ∀ b ∈ S, dist a b = some (d a b)
  nonneg : ∀ a ∈ S, ∀ b ∈ S, 0 ≤ d a b
  eq_zero : ∀ a ∈ S, ∀ b ∈ S, d a b = 0 ↔ a = b
  symm : ∀ a ∈ S, ∀ b ∈ S, d a b = d b a
  triangle : ∀ a ∈ S, ∀ b ∈ S, ∀ c ∈ S, d a c ≤ d a b + d b c

/-- a point within `t` of `q` is at a distance from `p` that is in the window of width `t` around `q`'s -/
theorem MetricOn.window (h : MetricOn S dist d) {p x q : W} (hp : p ∈ S) (hx : x ∈ S) (hq : q ∈ S) {t : ℤ}
    (hxq : d x q ≤ t) : d p q - t ≤ d p x ∧ d p x ≤ d p q + t := by
  have h1 := h.triangle p hp x hx q hq
  have h2 := h.triangle p hp q hq x hx
  rw [h.symm q hq x hx] at h2
  omega

end Metric

end K23Search.Lib
