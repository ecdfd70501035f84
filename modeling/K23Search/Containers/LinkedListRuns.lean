/-
`qs::linked_list` under any sequence of calls (include/qs/list.hpp): insertion next to a node, runs of the four
operations, and copy assignment.

`append(value, node)` and `prepend(value, node)` decide whether the tail or the head moves with `list_node::operator==`,
which compares values and links, after the links have been rewired. `appendAt_eq` and `prependAt_eq` say that this finds
the end of the list and nothing else.

- `rep_appendAt`, `rep_prependAt`: the two insertions keep the links right;
- `run_sequence`: a run of the operations is the run of `edit` on the sequence of nodes, and every list reached is
  `Intact`;
- `copyAssign_iff`: copy assignment, which destroys its own nodes and then walks them, gives a copy only from an empty
  list to an empty list.
-/
import K23Search.Containers.LinkedList
import K23Search.Lib.Run

namespace K23Search

open K23Search.Lib

namespace LinkedList

variable {V : Type}

/-! ## Insertion next to a node -/

/-- `new list_node<V>(value, prev, next)`; the node's address is `fresh` -/
def newNode (l : LinkedList V) (v : V) (prev next : Option ℕ) : LinkedList V :=
  { l with
    next := Function.update l.next l.fresh next
    prev := Function.update l.prev l.fresh prev
    value := Function.update l.value l.fresh (some v)
    fresh := l.fresh + 1 }

def insertBefore (l : LinkedList V) (node new : ℕ) : LinkedList V :=
  { l with
    next := match l.prev node with
      | none => l.next
      | some prev => Function.update l.next prev (some new)
    prev := Function.update l.prev node (some new) }

def insertAfter (l : LinkedList V) (node new : ℕ) : LinkedList V :=
  { l with
    next := Function.update l.next node (some new)
    prev := match l.next node with
      | none => l.prev
      | some next => Function.update l.prev next (some new) }

section calls

variable (eq : V → V → Bool)

/-- `list_node::operator==`; `eq` compares the values -/
def nodeEq (l : LinkedList V) (a b : ℕ) : Option Bool := do
  let v ← l.value a
  let w ← l.value b
  some (eq v w && l.next a == l.next b && l.prev a == l.prev b)

/-- `append(value, node)` -/
def appendAt (l : LinkedList V) (v : V) (node : ℕ) : Option (LinkedList V) := do
  let _ ← l.value node
  let l' := insertAfter (newNode l v (some node) (l.next node)) node l.fresh
  let tail ← l'.tail
  let last ← nodeEq eq l' node tail
  some { l' with tail := if last then some l.fresh else l'.tail, size := l'.size + 1 }

/-- `prepend(value, node)` -/
def prependAt (l : LinkedList V) (v : V) (node : ℕ) : Option (LinkedList V) := do
  let _ ← l.value node
  let l' := insertBefore (newNode l v (l.prev node) (some node)) node l.fresh
  let head ← l'.head
  let first ← nodeEq eq l' node head
  some { l' with head := if first then some l.fresh else l'.head, size := l'.size + 1 }

inductive Call (V : Type) where
  | append (v : V)
  | appendAt (v : V) (node : ℕ)
  | prependAt (v : V) (node : ℕ)
  | remove (node : ℕ)

/-- one call; through a pointer to no node it is undefined -/
def step (l : LinkedList V) : Call V → Option (LinkedList V)
  | .append v => append l v
  | .appendAt v node => appendAt eq l v node
  | .prependAt v node => prependAt eq l v node
  | .remove node => if (l.value node).isSome then some (remove l node) else none

variable {eq : V → V → Bool} {l : LinkedList V} {nodes : List (ℕ × V)} {a : ℕ}

theorem Rep.value_of_mem (h : Rep l nodes) (ha : a ∈ nodes.map Prod.fst) : ∃ v, l.value a = some v := by
  obtain ⟨p, hp, rfl⟩ := List.mem_map.1 ha
  exact ⟨p.2, (h.value_iff _ _).2 hp⟩

theorem Rep.exists_tail (h : Rep l nodes) (ha : a ∈ nodes.map Prod.fst) :
    ∃ t, l.tail = some t ∧ t ∈ nodes.map Prod.fst := by
  have hne := List.ne_nil_of_mem ha
  exact ⟨_, h.tail_eq.trans (List.getLast?_eq_some_getLast hne), List.getLast_mem hne⟩

theorem Rep.exists_head (h : Rep l nodes) (ha : a ∈ nodes.map Prod.fst) :
    ∃ t, l.head = some t ∧ t ∈ nodes.map Prod.fst := by
  have hne := List.ne_nil_of_mem ha
  exact ⟨_, h.head_eq.trans (List.head?_eq_some_head hne), List.head_mem hne⟩

theorem Rep.tail_next (h : Rep l nodes) {t : ℕ} (ht : l.tail = some t) : l.next t = none := by
  obtain ⟨as, has⟩ := List.getLast?_eq_some_iff.1 (h.tail_eq.symm.trans ht)
  have hseg := h.seg
  rw [has] at hseg
  exact (seg_at hseg).2

theorem Rep.head_prev (h : Rep l nodes) {t : ℕ} (ht : l.head = some t) : l.prev t = none := by
  obtain ⟨as, has⟩ := List.head?_eq_some_iff.1 (h.head_eq.symm.trans ht)
  have hseg := h.seg
  rw [has] at hseg
  exact hseg.1

/-! The links after an insertion -/

theorem insertAfter_next (l : LinkedList V) (v : V) (prev next : Option ℕ) (a p : ℕ) :
    (insertAfter (newNode l v prev next) a l.fresh).next p =
      if p = a then some l.fresh else if p = l.fresh then next else l.next p := by
  simp only [insertAfter, newNode, Function.update_apply]

theorem insertAfter_prev (v : V) (prev next : Option ℕ) (ha : a ≠ l.fresh) (p : ℕ) :
    (insertAfter (newNode l v prev next) a l.fresh).prev p =
      if l.next a = some p then some l.fresh else if p = l.fresh then prev else l.prev p := by
  have hnext : (newNode l v prev next).next a = l.next a := Function.update_of_ne ha _ _
  simp only [insertAfter, hnext]
  cases l.next a with
  | none => simp [newNode, Function.update_apply]
  | some n => simp [newNode, Function.update_apply, eq_comm]

theorem insertBefore_prev (l : LinkedList V) (v : V) (prev next : Option ℕ) (a p : ℕ) :
    (insertBefore (newNode l v prev next) a l.fresh).prev p =
      if p = a then some l.fresh else if p = l.fresh then prev else l.prev p := by
  simp only [insertBefore, newNode, Function.update_apply]

theorem insertBefore_next (v : V) (prev next : Option ℕ) (ha : a ≠ l.fresh) (p : ℕ) :
    (insertBefore (newNode l v prev next) a l.fresh).next p =
      if l.prev a = some p then some l.fresh else if p = l.fresh then next else l.next p := by
  have hprev : (newNode l v prev next).prev a = l.prev a := Function.update_of_ne ha _ _
  simp only [insertBefore, hprev]
  cases l.prev a with
  | none => simp [newNode, Function.update_apply]
  | some n => simp [newNode, Function.update_apply, eq_comm]

/-- with a reflexive `==` on the values, nodes are told apart by a link -/
theorem nodeEq_eq (heq : ∀ v, eq v v = true) {t : ℕ} {v w : V} (hv : l.value a = some v) (ht : l.value t = some w)
    (hlink : a ≠ t → ¬(l.next a = l.next t ∧ l.prev a = l.prev t)) : nodeEq eq l a t = some (decide (a = t)) := by
  by_cases hat : a = t
  · subst hat
    simp [nodeEq, hv, heq]
  · have := hlink hat
    simp only [nodeEq, hv, ht, decide_eq_false hat, Option.bind_eq_bind, Option.bind_some, Option.some.injEq,
      Bool.and_eq_false_iff, beq_eq_false_iff_ne]
    tauto

/-- `append(value, node)` finds out by `==` whether `node` was the tail -/
theorem appendAt_eq (heq : ∀ v, eq v v = true) (h : Rep l nodes) (ha : a ∈ nodes.map Prod.fst) (v : V) :
    let l' := insertAfter (newNode l v (some a) (l.next a)) a l.fresh
    appendAt eq l v a =
      some { l' with tail := if l.tail = some a then some l.fresh else l.tail, size := l.size + 1 } := by
  obtain ⟨w, hw⟩ := h.value_of_mem ha
  obtain ⟨t, ht, htl⟩ := h.exists_tail ha
  obtain ⟨u, hu⟩ := h.value_of_mem htl
  have haf : a ≠ l.fresh := Nat.ne_of_lt (h.lt_fresh a ha)
  have htf : t ≠ l.fresh := Nat.ne_of_lt (h.lt_fresh t htl)
  have hnode : nodeEq eq (insertAfter (newNode l v (some a) (l.next a)) a l.fresh) a t = some (decide (a = t)) := by
    apply nodeEq_eq heq
    · exact (Function.update_of_ne haf _ _).trans hw
    · exact (Function.update_of_ne htf _ _).trans hu
    · -- after the rewiring `a` is followed by the new node, and the tail by none
      intro hat hlink
      have hnext := hlink.1
      rw [insertAfter_next, insertAfter_next, if_pos rfl, if_neg (Ne.symm hat), if_neg htf, h.tail_next ht] at hnext
      exact absurd hnext (by simp)
  have htail : (insertAfter (newNode l v (some a) (l.next a)) a l.fresh).tail = some t := ht
  simp only [appendAt, hw, htail, hnode, Option.bind_eq_bind, Option.bind_some, ht, Option.some.injEq,
    decide_eq_true_eq, eq_comm (a := a)]
  rfl

/-- `prepend(value, node)` finds out by `==` whether `node` was the head -/
theorem prependAt_eq (heq : ∀ v, eq v v = true) (h : Rep l nodes) (ha : a ∈ nodes.map Prod.fst) (v : V) :
    let l' := insertBefore (newNode l v (l.prev a) (some a)) a l.fresh
    prependAt eq l v a =
      some { l' with head := if l.head = some a then some l.fresh else l.head, size := l.size + 1 } := by
  obtain ⟨w, hw⟩ := h.value_of_mem ha
  obtain ⟨t, ht, htl⟩ := h.exists_head ha
  obtain ⟨u, hu⟩ := h.value_of_mem htl
  have haf : a ≠ l.fresh := Nat.ne_of_lt (h.lt_fresh a ha)
  have htf : t ≠ l.fresh := Nat.ne_of_lt (h.lt_fresh t htl)
  have hnode : nodeEq eq (insertBefore (newNode l v (l.prev a) (some a)) a l.fresh) a t = some (decide (a = t)) := by
    apply nodeEq_eq heq
    · exact (Function.update_of_ne haf _ _).trans hw
    · exact (Function.update_of_ne htf _ _).trans hu
    · -- the new node is before `a`, and no node is before the head
      intro hat hlink
      have hprev := hlink.2
      rw [insertBefore_prev, insertBefore_prev, if_pos rfl, if_neg (Ne.symm hat), if_neg htf, h.head_prev ht] at hprev
      exact absurd hprev (by simp)
  have hhead : (insertBefore (newNode l v (l.prev a) (some a)) a l.fresh).head = some t := ht
  simp only [prependAt, hw, hhead, hnode, Option.bind_eq_bind, Option.bind_some, ht, Option.some.injEq,
    decide_eq_true_eq, eq_comm (a := a)]
  rfl

theorem rep_appendAt (heq : ∀ v, eq v v = true) {as bs : List (ℕ × V)} {w : V} (h : Rep l (as ++ (a, w) :: bs)) (v : V) :
    ∃ l', appendAt eq l v a = some l' ∧ l'.fresh = l.fresh + 1 ∧ Rep l' (as ++ (a, w) :: (l.fresh, v) :: bs) := by
  have ha : a ∈ (as ++ (a, w) :: bs).map Prod.fst := by simp
  have haf : a ≠ l.fresh := Nat.ne_of_lt (h.lt_fresh a ha)
  have hlast : ((as ++ [(a, w)]).map Prod.fst).getLast? = some a := by simp
  refine ⟨_, appendAt_eq heq h ha v, rfl, ?_⟩
  rw [List.append_cons] at h ⊢
  have hne : ∀ p ∈ (as ++ [(a, w)] ++ bs).map Prod.fst, p ≠ l.fresh := fun p hp => Nat.ne_of_lt (h.lt_fresh p hp)
  have hnext : l.next a = (bs.map Prod.fst).head? := by
    have hseg := h.seg
    rw [List.map_append, List.map_append, List.append_assoc, List.map_singleton, List.singleton_append] at hseg
    rw [(seg_at hseg).2, Option.or_none]
  have hab : a ∉ bs.map Prod.fst := by
    have hd := h.nodup
    rw [List.map_append, List.nodup_append] at hd
    exact fun hm => hd.2.2 a (by simp) a hm rfl
  apply rep_insert h
  · rw [List.head?_append_of_ne_nil _ (by simp)]
    exact h.head_eq.trans (by simp)
  · -- the tail moves exactly when no node follows `a`
    have htail := h.tail_eq
    rw [List.map_append, List.getLast?_append, hlast] at htail
    rw [List.getLast?_append, List.getLast?_cons, Option.some_or]
    cases hbs : (bs.map Prod.fst).getLast? with
    | none => simp [htail, hbs]
    | some y =>
      have hya : y ≠ a := fun heq => hab (heq ▸ List.mem_of_getLast? hbs)
      simp [htail, hbs, hya]
  · rfl
  · rfl
  · rfl
  · rw [insertAfter_next, if_neg haf.symm, if_pos rfl]
    exact hnext
  · rw [hlast, insertAfter_prev _ _ _ haf, if_neg, if_pos rfl]
    intro hc
    have hfb : l.fresh ∈ bs.map Prod.fst := List.mem_of_mem_head? (hnext.symm.trans hc)
    exact h.fresh_notin (by simpa using .inr (.inr (by simpa using hfb)))
  · intro p hp
    rw [hlast, Option.some.injEq] at hp
    rw [insertAfter_next, if_pos hp.symm]
  · intro p hp
    rw [insertAfter_prev _ _ _ haf, if_pos (hnext.trans hp)]
  · intro p hp hpl
    have hpa : p ≠ a := fun heq => hpl (heq ▸ hlast)
    rw [insertAfter_next, if_neg hpa, if_neg (hne p hp)]
  · intro p hp hpf
    rw [insertAfter_prev _ _ _ haf, if_neg (hnext ▸ hpf), if_neg (hne p hp)]

theorem rep_prependAt (heq : ∀ v, eq v v = true) {as bs : List (ℕ × V)} {w : V} (h : Rep l (as ++ (a, w) :: bs))
    (v : V) :
    ∃ l', prependAt eq l v a = some l' ∧ l'.fresh = l.fresh + 1 ∧ Rep l' (as ++ (l.fresh, v) :: (a, w) :: bs) := by
  have ha : a ∈ (as ++ (a, w) :: bs).map Prod.fst := by simp
  have haf : a ≠ l.fresh := Nat.ne_of_lt (h.lt_fresh a ha)
  have hfirst : (((a, w) :: bs).map Prod.fst).head? = some a := rfl
  refine ⟨_, prependAt_eq heq h ha v, rfl, ?_⟩
  have hne : ∀ p ∈ (as ++ (a, w) :: bs).map Prod.fst, p ≠ l.fresh := fun p hp => Nat.ne_of_lt (h.lt_fresh p hp)
  have hprev : l.prev a = (as.map Prod.fst).getLast? := by
    have hseg := h.seg
    rw [List.map_append, List.map_cons] at hseg
    rw [(seg_at hseg).1, Option.or_none]
  have haa : a ∉ as.map Prod.fst := by
    have hd := h.nodup
    rw [List.map_append, List.nodup_append] at hd
    exact fun hm => hd.2.2 a hm a (by simp) rfl
  apply rep_insert h
  · -- the head moves exactly when no node is before `a`
    have hhead := h.head_eq
    rw [List.map_append, List.head?_append, hfirst] at hhead
    rw [List.head?_append, List.head?_cons]
    cases has : (as.map Prod.fst).head? with
    | none => simp [hhead, has]
    | some y =>
      have hya : y ≠ a := fun heq => haa (heq ▸ List.mem_of_mem_head? has)
      simp [hhead, has, hya]
  · rw [List.getLast?_append, List.map_cons, List.getLast?_cons_cons]
    have htail := h.tail_eq
    rw [List.map_append, List.getLast?_append, List.map_cons] at htail
    exact htail
  · rfl
  · rfl
  · rfl
  · rw [hfirst, insertBefore_next _ _ _ haf, if_neg, if_pos rfl]
    intro hc
    have hfa : l.fresh ∈ as.map Prod.fst := List.mem_of_getLast? (hprev.symm.trans hc)
    exact h.fresh_notin (by simpa using .inl (by simpa using hfa))
  · rw [insertBefore_prev, if_neg haf.symm, if_pos rfl]
    exact hprev
  · intro p hp
    rw [insertBefore_next _ _ _ haf, if_pos (hprev.trans hp)]
  · intro p hp
    rw [hfirst, Option.some.injEq] at hp
    rw [insertBefore_prev, if_pos hp.symm]
  · intro p hp hpl
    rw [insertBefore_next _ _ _ haf, if_neg (hprev ▸ hpl), if_neg (hne p hp)]
  · intro p hp hpf
    have hpa : p ≠ a := fun heq => hpf (heq ▸ hfirst)
    rw [insertBefore_prev, if_neg hpa, if_neg (hne p hp)]

end calls

/-! ## Runs -/

/-- the sequence a list stands for, with the address of the next node to be made -/
structure Sequence (V : Type) where
  nodes : List (ℕ × V)
  fresh : ℕ

/-- the calls on the sequence: insert at the end, right after the node, right before the node; delete the node -/
def edit (s : Sequence V) : Call V → Option (Sequence V)
  | .append v => some ⟨s.nodes ++ [(s.fresh, v)], s.fresh + 1⟩
  | .appendAt v node =>
    if node ∈ s.nodes.map Prod.fst then
      some ⟨s.nodes.flatMap fun p => if p.1 = node then [p, (s.fresh, v)] else [p], s.fresh + 1⟩
    else none
  | .prependAt v node =>
    if node ∈ s.nodes.map Prod.fst then
      some ⟨s.nodes.flatMap fun p => if p.1 = node then [(s.fresh, v), p] else [p], s.fresh + 1⟩
    else none
  | .remove node =>
    if node ∈ s.nodes.map Prod.fst then some ⟨s.nodes.filter fun p => p.1 ≠ node, s.fresh⟩ else none

/-- the chains, ends and size of the list are those of the sequence of nodes -/
structure Intact (l : LinkedList V) (nodes : List (ℕ × V)) : Prop where
  forward : Chain l.next l.head (nodes.map Prod.fst)
  backward : Chain l.prev l.tail (nodes.map Prod.fst).reverse
  values : ∀ p ∈ nodes, l.value p.1 = some p.2
  head_prev : ∀ a, l.head = some a → l.prev a = none
  tail_next : ∀ a, l.tail = some a → l.next a = none
  size_eq : l.size = nodes.length
  null : nodes = [] → l.head = none ∧ l.tail = none

variable {eq : V → V → Bool} {l : LinkedList V} {nodes : List (ℕ × V)} {a : ℕ}

theorem Rep.intact (h : Rep l nodes) : Intact l nodes where
  forward := by
    rw [h.head_eq]
    exact seg_forward h.seg
  backward := by
    rw [h.tail_eq]
    exact seg_backward h.seg
  values := fun p hp => (h.value_iff _ _).2 hp
  head_prev := fun _ ht => h.head_prev ht
  tail_next := fun _ ht => h.tail_next ht
  size_eq := h.size_eq
  null := by
    intro hnil
    subst hnil
    exact ⟨h.head_eq, h.tail_eq⟩

/-- what `flatMap` does at the one node of an address -/
theorem flatMap_middle (f : ℕ × V → List (ℕ × V)) {as bs : List (ℕ × V)} {w : V}
    (hd : ((as ++ (a, w) :: bs).map Prod.fst).Nodup) :
    ((as ++ (a, w) :: bs).flatMap fun p => if p.1 = a then f p else [p]) = as ++ (f (a, w) ++ bs) := by
  rw [List.map_append, List.map_cons, List.nodup_middle, List.nodup_cons, ← List.map_append] at hd
  have hkeep : ∀ l ⊆ as ++ bs, (l.flatMap fun p => if p.1 = a then f p else [p]) = l := by
    intro l hl
    calc (l.flatMap fun p => if p.1 = a then f p else [p])
        = l.flatMap fun p => [p] := by
          apply List.flatMap_congr
          intro p hp
          exact if_neg fun heq => hd.1 (List.mem_map.2 ⟨p, hl hp, heq⟩)
      _ = l := List.flatMap_singleton' l
  rw [List.flatMap_append, List.flatMap_cons, if_pos rfl, hkeep as (List.subset_append_left _ _),
    hkeep bs (List.subset_append_right _ _)]

/-- the list stands for the sequence -/
def Tracks (l : LinkedList V) (s : Sequence V) : Prop := Rep l s.nodes ∧ l.fresh = s.fresh

theorem step_sequence (heq : ∀ v, eq v v = true) (l : LinkedList V) (s : Sequence V) (c : Call V) (h : Tracks l s) :
    Option.Rel Tracks (step eq l c) (edit s c) := by
  obtain ⟨nodes, fresh⟩ := s
  obtain ⟨hrep, rfl⟩ : Rep l nodes ∧ l.fresh = fresh := h
  have hdead : ∀ {node}, node ∉ nodes.map Prod.fst → l.value node = none := by
    intro node hnode
    apply Option.eq_none_iff_forall_ne_some.2
    intro v hv
    exact hnode (List.mem_map_of_mem ((hrep.value_iff _ _).1 hv))
  -- a node of the list splits it
  have hsplit : ∀ {node}, node ∈ nodes.map Prod.fst → ∃ as w bs, nodes = as ++ (node, w) :: bs := by
    intro node hnode
    obtain ⟨⟨node, w⟩, hmem, rfl⟩ := List.mem_map.1 hnode
    obtain ⟨as, bs, hl⟩ := List.append_of_mem hmem
    exact ⟨as, w, bs, hl⟩
  cases c with
  | append v =>
    obtain ⟨l', hl', hfresh, hrep'⟩ := rep_append hrep v
    rw [step, hl']
    exact .some ⟨hrep', hfresh⟩
  | appendAt v node =>
    by_cases hnode : node ∈ nodes.map Prod.fst
    · obtain ⟨as, w, bs, rfl⟩ := hsplit hnode
      obtain ⟨l', hl', hfresh, hrep'⟩ := rep_appendAt heq hrep v
      rw [step, edit, if_pos hnode, hl', flatMap_middle _ hrep.nodup]
      exact .some ⟨hrep', hfresh⟩
    · rw [step, edit, if_neg hnode, appendAt, hdead hnode]
      exact .none
  | prependAt v node =>
    by_cases hnode : node ∈ nodes.map Prod.fst
    · obtain ⟨as, w, bs, rfl⟩ := hsplit hnode
      obtain ⟨l', hl', hfresh, hrep'⟩ := rep_prependAt heq hrep v
      rw [step, edit, if_pos hnode, hl', flatMap_middle _ hrep.nodup]
      exact .some ⟨hrep', hfresh⟩
    · rw [step, edit, if_neg hnode, prependAt, hdead hnode]
      exact .none
  | remove node =>
    by_cases hnode : node ∈ nodes.map Prod.fst
    · obtain ⟨w, hw⟩ := hrep.value_of_mem hnode
      rw [step, edit, if_pos hnode, hw, if_pos (Option.isSome_some)]
      exact .some ⟨rep_remove hrep hnode, rfl⟩
    · rw [step, edit, if_neg hnode, hdead hnode]
      exact .none

/-- **Integrity.** A run from the empty list is possible exactly when its calls name nodes of the sequence at their
time, and the list it reaches is intact, with the nodes of the edited sequence. -/
theorem run_sequence (heq : ∀ v, eq v v = true) (calls : List (Call V)) :
    Option.Rel (fun l s => Intact l s.nodes) (run (step eq) empty calls) (run edit ⟨[], 0⟩ calls) := by
  have hrel : Option.Rel Tracks (run (step eq) empty calls) (run edit ⟨[], 0⟩ calls) :=
    run_lockstep (step_sequence heq) ⟨rep_empty, rfl⟩ calls
  generalize run (step eq) empty calls = end₁ at hrel ⊢
  generalize run edit ⟨[], 0⟩ calls = end₂ at hrel ⊢
  cases hrel with
  | some h => exact .some h.1.intact
  | none => exact .none

/-- equal values, and insertions at both ends of a list of one node -/
theorem run_sequence_equal_values :
    let calls := [Call.append 7, .appendAt 7 0, .prependAt 7 0, .prependAt 7 0, .remove 1]
    (run edit ⟨[], 0⟩ calls).map Sequence.nodes = some [(2, 7), (3, 7), (0, 7)] ∧
      Option.Rel (fun l s => Intact l s.nodes) (run (step fun v w : ℕ => v == w) empty calls) (run edit ⟨[], 0⟩ calls) :=
  ⟨by decide, run_sequence (fun v => beq_self_eq_true v) _⟩

/-! ## Copy assignment -/

/-- `~linked_list()`, from the node `iter` on: delete the nodes one after the other. `none`: the loop deletes a node
twice, or is not through after `fuel` rounds. -/
def destroy (l : LinkedList V) : ℕ → Option ℕ → Option (LinkedList V)
  | _, none => some l
  | 0, some _ => none
  | fuel + 1, some node =>
    match l.value node with
    | none => none
    | some _ => destroy { l with value := Function.update l.value node none } fuel (l.next node)

/-- the loop of the copy assignment. The body does not move `iter`. `none`: it reads a node that is not there, or is
not through after `fuel` rounds. -/
def copyLoop (l : LinkedList V) : ℕ → Option ℕ → Option (LinkedList V)
  | _, none => some l
  | 0, some _ => none
  | fuel + 1, some node => do
    let v ← l.value node
    let l' ← append l v
    copyLoop l' fuel (some node)

/-- `*this = other`, for two lists, each with nodes of its own. The destructor leaves `head`, `tail` and `size` as they
were, and the loop starts at the list's own `head`. -/
def copyAssign (fuel : ℕ) (this other : LinkedList V) : Option (LinkedList V × LinkedList V) := do
  let l ← destroy this fuel this.head
  let l' ← copyLoop l fuel l.head
  some (l', other)

/-- the assignment ends, without reading a deleted node; the list then has the values of the other, which is as it
was -/
def Copies (this other : DList V) : Prop :=
  ∃ fuel l, copyAssign fuel this.raw other.raw = some (l, other.raw) ∧
    ∃ nodes, Intact l nodes ∧ nodes.map Prod.snd = other.nodes.map Prod.snd

/-- what the destructor does: the head stays, no node comes back, and the first node is gone -/
theorem destroy_some {l l' : LinkedList V} {fuel : ℕ} {iter : Option ℕ} (h : destroy l fuel iter = some l') :
    l'.head = l.head ∧ (∀ a, l.value a = none → l'.value a = none) ∧ ∀ a, iter = some a → l'.value a = none := by
  induction fuel generalizing l iter with
  | zero =>
    cases iter with
    | none => cases h; simp
    | some node => cases h
  | succ fuel ih =>
    cases iter with
    | none => cases h; simp
    | some node =>
      rw [destroy] at h
      split at h
      · cases h
      · obtain ⟨hhead, hkeep, -⟩ := ih h
        refine ⟨hhead, ?_, ?_⟩
        · intro a ha
          apply hkeep
          change Function.update l.value node none a = none
          rw [Function.update_apply, ha, ite_self]
        · intro a ha
          cases ha
          exact hkeep _ (Function.update_self _ _ _)

/-- a list with a node is not copied to: the loop starts at a deleted node -/
theorem copyAssign_undefined {this : LinkedList V} (hhead : this.head = some a) (fuel : ℕ) (other : LinkedList V) :
    copyAssign fuel this other = none := by
  rw [copyAssign, hhead]
  cases hd : destroy this fuel (some a) with
  | none => rfl
  | some l =>
    obtain ⟨hl, -, hdead⟩ := destroy_some hd
    have hloop : copyLoop l fuel l.head = none := by
      rw [hl, hhead]
      cases fuel with
      | zero => rfl
      | succ fuel => rw [copyLoop, hdead a rfl]; rfl
    simp [hloop]

/-- **Copy assignment** copies from an empty list to an empty list only -/
theorem copyAssign_iff (this other : DList V) : Copies this other ↔ this.nodes = [] ∧ other.nodes = [] := by
  constructor
  · intro h
    obtain ⟨fuel, l, hcopy, nodes, hintact, hvalues⟩ := h
    cases hhead : this.raw.head with
    | some a =>
      rw [copyAssign_undefined hhead] at hcopy
      cases hcopy
    | none =>
      have hthis : this.nodes = [] := by
        rw [this.head_eq, List.head?_eq_none_iff, List.map_eq_nil_iff] at hhead
        exact hhead
      have hl : this.raw = l := by
        rw [copyAssign, hhead] at hcopy
        cases fuel <;> simpa [destroy, copyLoop, hhead] using hcopy
      refine ⟨hthis, ?_⟩
      have hsize : nodes.length = 0 := by rw [← hintact.size_eq, ← hl, this.size_eq, hthis]; rfl
      rw [List.length_eq_zero_iff.1 hsize, List.map_nil, eq_comm, List.map_eq_nil_iff] at hvalues
      exact hvalues
  · intro h
    obtain ⟨hthis, hother⟩ := h
    have hhead : this.raw.head = none := by rw [this.head_eq, hthis]; rfl
    refine ⟨0, this.raw, ?_, this.nodes, this.rep.intact, by rw [hthis, hother]⟩
    simp [copyAssign, destroy, copyLoop, hhead]

/-- a list of one element is assigned the empty list -/
theorem copyAssign_single : ¬Copies (DList.empty.append 1) (DList.empty : DList ℕ) := by
  intro h
  obtain ⟨fuel, l, hcopy, -⟩ := h
  rw [copyAssign_undefined (a := 0) rfl] at hcopy
  cases hcopy

end LinkedList

end K23Search
