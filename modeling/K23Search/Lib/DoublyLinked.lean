/-
Doubly linked segments over a memory given field by field: `next` and `prev` are the two link fields, as functions from
addresses. `Seg next prev b l e` says that the addresses `l` form a chain that is entered from `b` and left to `e`
(`none`: the null pointer). `next` and `prev` are then inverse to each other along `l`.

- `seg_append`, `seg_at`: a segment splits at every address;
- `seg_inverse`: along a whole chain `next` and `prev` are inverse to each other;
- `seg_congr`: a segment depends on the links of its own addresses only (the frame rule);
- `seg_forward`, `seg_backward`: the chains that `next` and `prev` alone give (`Chain`);
- `seg_link`: link a fresh address between two neighbours;
- `seg_unlink`: take an address out.
-/
import Mathlib.Data.List.Basic
import Mathlib.Data.List.Induction
import Mathlib.Data.List.Nodup

namespace K23Search.Lib

variable {P : Type*}

/-- the addresses `l` are linked in this order; `b` comes before the first and `e` after the last -/
def Seg (next prev : P → Option P) : Option P → List P → Option P → Prop
  | _, [], _ => True
  | b, p :: l, e => prev p = b ∧ next p = l.head?.or e ∧ Seg next prev (some p) l e

@[simp] theorem seg_nil (next prev : P → Option P) (b e : Option P) : Seg next prev b [] e := trivial

theorem seg_append (next prev : P → Option P) (b : Option P) (l₁ l₂ : List P) (e : Option P) :
    Seg next prev b (l₁ ++ l₂) e ↔
      Seg next prev b l₁ (l₂.head?.or e) ∧ Seg next prev (l₁.getLast?.or b) l₂ e := by
  induction l₁ generalizing b with
  | nil => simp
  | cons p l ih =>
    simp only [List.cons_append, Seg, ih (some p), List.head?_append, Option.or_assoc]
    have hlast : (p :: l).getLast?.or b = l.getLast?.or (some p) := by
      cases l with
      | nil => rfl
      | cons q l => simp [List.getLast?_cons]
    rw [hlast]
    tauto

/-- the links of an address inside a segment -/
theorem seg_at {next prev : P → Option P} {b e : Option P} {l₁ l₂ : List P} {p : P}
    (h : Seg next prev b (l₁ ++ p :: l₂) e) : prev p = l₁.getLast?.or b ∧ next p = l₂.head?.or e := by
  rw [seg_append] at h
  exact ⟨h.2.1, h.2.2.1⟩

/-- `next` and `prev` are inverse to each other on a whole chain, which they do not leave -/
theorem seg_inverse {next prev : P → Option P} {l : List P} {p q : P} (h : Seg next prev none l none) (hp : p ∈ l) :
    next p = some q ↔ q ∈ l ∧ prev q = some p := by
  constructor
  · intro hq
    obtain ⟨as, bs, rfl⟩ := List.append_of_mem hp
    have hnext := (seg_at h).2
    rw [hq, Option.or_none] at hnext
    obtain ⟨cs, rfl⟩ := List.head?_eq_some_iff.1 hnext.symm
    rw [List.append_cons] at h ⊢
    exact ⟨by simp, by simpa using (seg_at h).1⟩
  · rintro ⟨hq, hprev⟩
    obtain ⟨as, bs, rfl⟩ := List.append_of_mem hq
    have hlast := (seg_at h).1
    rw [hprev, Option.or_none] at hlast
    obtain ⟨cs, rfl⟩ := List.getLast?_eq_some_iff.1 hlast.symm
    rw [List.append_assoc, List.singleton_append] at h
    simpa using (seg_at h).2

/-- following one link field from `p` visits `l`, in this order, and ends at the null pointer -/
def Chain (link : P → Option P) : Option P → List P → Prop
  | p, [] => p = none
  | p, q :: l => p = some q ∧ Chain link (link q) l

/-- the chain of `next` from the first address of a segment -/
theorem seg_forward {next prev : P → Option P} {b : Option P} {l : List P} (h : Seg next prev b l none) :
    Chain next l.head? l := by
  induction l generalizing b with
  | nil => rfl
  | cons p l ih =>
    obtain ⟨-, hnext, hrest⟩ := h
    rw [Option.or_none] at hnext
    refine ⟨rfl, ?_⟩
    rw [hnext]
    exact ih hrest

/-- the chain of `prev` from the last address of a segment -/
theorem seg_backward {next prev : P → Option P} {e : Option P} {l : List P} (h : Seg next prev none l e) :
    Chain prev l.getLast? l.reverse := by
  induction l using List.reverseRecOn generalizing e with
  | nil => rfl
  | append_singleton l p ih =>
    rw [seg_append] at h
    obtain ⟨hinit, hlast⟩ := h
    rw [List.reverse_append, List.getLast?_append, List.getLast?_singleton, Option.some_or]
    refine ⟨rfl, ?_⟩
    rw [hlast.1, Option.or_none]
    exact ih hinit

/-- **Frame rule**: a segment reads the links of its own addresses only -/
theorem seg_congr {next prev next' prev' : P → Option P} {b e : Option P} {l : List P}
    (hn : ∀ p ∈ l, next' p = next p) (hp : ∀ p ∈ l, prev' p = prev p) (h : Seg next prev b l e) :
    Seg next' prev' b l e := by
  induction l generalizing b with
  | nil => trivial
  | cons p l ih =>
    obtain ⟨h1, h2, h3⟩ := h
    exact ⟨(hp p List.mem_cons_self).trans h1, (hn p List.mem_cons_self).trans h2,
      ih (fun q hq => hn q (List.mem_cons_of_mem _ hq)) (fun q hq => hp q (List.mem_cons_of_mem _ hq)) h3⟩

/-- change where a segment is left to: only the last address's `next` moves -/
theorem seg_exit {next prev next' prev' : P → Option P} {b e e' : Option P} {l : List P} (hd : l.Nodup)
    (hp : ∀ p ∈ l, prev' p = prev p) (hn : ∀ p ∈ l, l.getLast? ≠ some p → next' p = next p)
    (hlast : ∀ p, l.getLast? = some p → next' p = e') (h : Seg next prev b l e) : Seg next' prev' b l e' := by
  induction l generalizing b with
  | nil => trivial
  | cons p l ih =>
    obtain ⟨h1, h2, h3⟩ := h
    obtain ⟨hpl, hd⟩ := List.nodup_cons.1 hd
    refine ⟨(hp p List.mem_cons_self).trans h1, ?_, ?_⟩
    · cases l with
      | nil => simpa using hlast p rfl
      | cons q l =>
        have hne : (p :: q :: l).getLast? ≠ some p := by
          intro hc
          rw [List.getLast?_cons_cons] at hc
          exact hpl (List.mem_of_getLast? hc)
        simpa using (hn p List.mem_cons_self hne).trans h2
    · cases l with
      | nil => trivial
      | cons q l =>
        refine ih hd (fun r hr => hp r (List.mem_cons_of_mem _ hr)) (fun r hr hne => ?_) (fun r hr => ?_) h3
        · exact hn r (List.mem_cons_of_mem _ hr) (by rwa [List.getLast?_cons_cons])
        · exact hlast r (by rwa [List.getLast?_cons_cons])

/-- change where a segment is entered from: only the first address's `prev` moves -/
theorem seg_enter {next prev next' prev' : P → Option P} {b b' e : Option P} {l : List P} (hd : l.Nodup)
    (hn : ∀ p ∈ l, next' p = next p) (hp : ∀ p ∈ l, l.head? ≠ some p → prev' p = prev p)
    (hfirst : ∀ p, l.head? = some p → prev' p = b') (h : Seg next prev b l e) : Seg next' prev' b' l e := by
  cases l with
  | nil => trivial
  | cons p l =>
    obtain ⟨-, h2, h3⟩ := h
    have hpl := (List.nodup_cons.1 hd).1
    refine ⟨hfirst p rfl, (hn p List.mem_cons_self).trans h2, ?_⟩
    refine seg_congr (fun q hq => hn q (List.mem_cons_of_mem _ hq)) (fun q hq => ?_) h3
    refine hp q (List.mem_cons_of_mem _ hq) fun hc => hpl ?_
    rw [List.head?_cons, Option.some.injEq] at hc
    rwa [hc]

/-- **Linking a fresh address** `n` between the last address of `l₁` and the first of `l₂` -/
theorem seg_link {next prev next' prev' : P → Option P} {l₁ l₂ : List P} {n : P} (hd : (l₁ ++ l₂).Nodup)
    (hnext : next' n = l₂.head?) (hprev : prev' n = l₁.getLast?)
    (hl : ∀ p, l₁.getLast? = some p → next' p = some n) (hr : ∀ p, l₂.head? = some p → prev' p = some n)
    (hn : ∀ p ∈ l₁ ++ l₂, l₁.getLast? ≠ some p → next' p = next p)
    (hp : ∀ p ∈ l₁ ++ l₂, l₂.head? ≠ some p → prev' p = prev p)
    (h : Seg next prev none (l₁ ++ l₂) none) : Seg next' prev' none (l₁ ++ n :: l₂) none := by
  obtain ⟨hd₁, hd₂, hdis⟩ := List.nodup_append.1 hd
  rw [seg_append] at h ⊢
  refine ⟨?_, by simpa using hprev, by simpa using hnext, ?_⟩
  · refine seg_exit hd₁ (fun p hp' => hp p (List.mem_append_left _ hp') ?_)
      (fun p hp' => hn p (List.mem_append_left _ hp')) (fun p hp' => by simpa using hl p hp') h.1
    intro hc
    exact hdis p hp' p (List.mem_of_mem_head? hc) rfl
  · refine seg_enter hd₂ (fun p hp' => hn p (List.mem_append_right _ hp') ?_)
      (fun p hp' => hp p (List.mem_append_right _ hp')) hr h.2
    intro hc
    exact hdis p (List.mem_of_getLast? hc) p hp' rfl

/-- **Unlinking** the address `n` between `l₁` and `l₂` -/
theorem seg_unlink {next prev next' prev' : P → Option P} {l₁ l₂ : List P} {n : P} (hd : (l₁ ++ n :: l₂).Nodup)
    (hl : ∀ p, l₁.getLast? = some p → next' p = l₂.head?) (hr : ∀ p, l₂.head? = some p → prev' p = l₁.getLast?)
    (hn : ∀ p ∈ l₁ ++ l₂, l₁.getLast? ≠ some p → next' p = next p)
    (hp : ∀ p ∈ l₁ ++ l₂, l₂.head? ≠ some p → prev' p = prev p)
    (h : Seg next prev none (l₁ ++ n :: l₂) none) : Seg next' prev' none (l₁ ++ l₂) none := by
  obtain ⟨hd₁, hd₂, hdis⟩ := List.nodup_append.1 hd
  rw [seg_append] at h ⊢
  obtain ⟨h1, -, -, h2⟩ := h
  refine ⟨?_, ?_⟩
  · refine seg_exit hd₁ (fun p hp' => hp p (List.mem_append_left _ hp') ?_)
      (fun p hp' => hn p (List.mem_append_left _ hp')) (fun p hp' => by simpa using hl p hp') h1
    intro hc
    exact hdis p hp' p (List.mem_cons_of_mem _ (List.mem_of_mem_head? hc)) rfl
  · refine seg_enter (List.nodup_cons.1 hd₂).2 (fun p hp' => hn p (List.mem_append_right _ hp') ?_)
      (fun p hp' => hp p (List.mem_append_right _ hp')) (fun p hp' => by simpa using hr p hp') h2
    intro hc
    exact hdis p (List.mem_of_getLast? hc) p (List.mem_cons_of_mem _ hp') rfl

end K23Search.Lib
