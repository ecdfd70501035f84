/-
`qs::linked_list` (include/qs/list.hpp) and `qs::queue` (include/qs/queue.hpp) over it. A node is named by an address;
`next_node`, `prev_node` and `value` are fields over addresses, and an address with no value is not allocated (or freed
again): reading through it is `none`.

`LinkedList` is the code's list. `DList` is a list together with its nodes, in order, and the proof that the links are
those of the nodes (`Rep`), so that every list of the other modules is well formed by its type.

Results:
- `rep_insert`, `rep_append`, `rep_remove`, `rep_modify`: the operations keep the links right;
- `DList.nodes_append`, `DList.remove_some`, `DList.modify_cases`: what they do to the nodes.
-/
import K23Search.Lib.DoublyLinked
import Mathlib.Data.List.Pairwise
import Mathlib.Data.Nat.Notation
import Mathlib.Logic.Function.Basic

namespace K23Search

open K23Search.Lib

/-! ## Model -/

structure LinkedList (V : Type) where
  head : Option ℕ
  tail : Option ℕ
  size : ℕ
  next : ℕ → Option ℕ
  prev : ℕ → Option ℕ
  value : ℕ → Option V
  /-- the address of the next node to be allocated -/
  fresh : ℕ

namespace LinkedList

variable {V : Type}

def empty : LinkedList V := ⟨none, none, 0, fun _ => none, fun _ => none, fun _ => none, 0⟩

/-- `append(value)`; the node's address is `fresh`. The source looks at `head` and `tail` together; a list with just
one of them null dereferences it. -/
def append (l : LinkedList V) (v : V) : Option (LinkedList V) :=
  let node := l.fresh
  let prev := Function.update l.prev node l.tail
  let value := Function.update l.value node (some v)
  let next := Function.update l.next node none
  match l.tail with
  | none => if l.head = none then some ⟨some node, some node, l.size + 1, next, prev, value, node + 1⟩ else none
  | some tail => some ⟨l.head, some node, l.size + 1, Function.update next tail (some node), prev, value, node + 1⟩

/-- `remove(node)`: unlink the node and free it -/
def remove (l : LinkedList V) (node : ℕ) : LinkedList V :=
  let prev := l.prev node
  let next := l.next node
  { head := if l.head = some node then next else l.head
    tail := if l.tail = some node then prev else l.tail
    size := l.size - 1
    next := match prev with
      | none => l.next
      | some p => Function.update l.next p next
    prev := match next with
      | none => l.prev
      | some n => Function.update l.prev n prev
    value := Function.update l.value node none
    fresh := l.fresh }

/-- write to the value of a node -/
def modify (l : LinkedList V) (node : ℕ) (f : V → V) : LinkedList V :=
  { l with value := Function.update l.value node ((l.value node).map f) }

/-! ## Representation -/

/-- the links and values of `l` are those of `nodes` -/
structure Rep (l : LinkedList V) (nodes : List (ℕ × V)) : Prop where
  head_eq : l.head = (nodes.map Prod.fst).head?
  tail_eq : l.tail = (nodes.map Prod.fst).getLast?
  size_eq : l.size = nodes.length
  seg : Seg l.next l.prev none (nodes.map Prod.fst) none
  nodup : (nodes.map Prod.fst).Nodup
  lt_fresh : ∀ a ∈ nodes.map Prod.fst, a < l.fresh
  value_iff : ∀ a v, l.value a = some v ↔ (a, v) ∈ nodes

theorem rep_empty : Rep (empty : LinkedList V) [] :=
  ⟨rfl, rfl, rfl, trivial, List.nodup_nil, by simp, by simp [empty]⟩

variable {l : LinkedList V} {nodes : List (ℕ × V)}

theorem Rep.fresh_notin (h : Rep l nodes) : l.fresh ∉ nodes.map Prod.fst := fun hm =>
  Nat.lt_irrefl _ (h.lt_fresh _ hm)

/-- a fresh node, linked between two halves of the list -/
theorem rep_insert {as bs : List (ℕ × V)} {l' : LinkedList V} {v : V} (h : Rep l (as ++ bs))
    (hhead : l'.head = (as.map Prod.fst ++ l.fresh :: bs.map Prod.fst).head?)
    (htail : l'.tail = (as.map Prod.fst ++ l.fresh :: bs.map Prod.fst).getLast?) (hsize : l'.size = l.size + 1)
    (hvalue : l'.value = Function.update l.value l.fresh (some v)) (hfresh : l'.fresh = l.fresh + 1)
    (hnext : l'.next l.fresh = (bs.map Prod.fst).head?) (hprev : l'.prev l.fresh = (as.map Prod.fst).getLast?)
    (hl : ∀ p, (as.map Prod.fst).getLast? = some p → l'.next p = some l.fresh)
    (hr : ∀ p, (bs.map Prod.fst).head? = some p → l'.prev p = some l.fresh)
    (hn : ∀ p ∈ (as ++ bs).map Prod.fst, (as.map Prod.fst).getLast? ≠ some p → l'.next p = l.next p)
    (hp : ∀ p ∈ (as ++ bs).map Prod.fst, (bs.map Prod.fst).head? ≠ some p → l'.prev p = l.prev p) :
    Rep l' (as ++ (l.fresh, v) :: bs) := by
  have hmap : (as ++ (l.fresh, v) :: bs).map Prod.fst = as.map Prod.fst ++ l.fresh :: bs.map Prod.fst := by simp
  have hold : (as ++ bs).map Prod.fst = as.map Prod.fst ++ bs.map Prod.fst := List.map_append
  have hnotin := h.fresh_notin
  have hd := h.nodup
  have hseg := h.seg
  rw [hold] at hnotin hd hseg hn hp
  refine ⟨by rw [hmap, hhead], by rw [hmap, htail], ?_, ?_, ?_, ?_, ?_⟩
  · rw [hsize, h.size_eq, List.length_append, List.length_append, List.length_cons]
    omega
  · rw [hmap]
    exact seg_link hd hnext hprev hl hr hn hp hseg
  · rw [hmap, List.nodup_middle, List.nodup_cons]
    exact ⟨hnotin, hd⟩
  · intro a ha
    rw [hmap, List.mem_append, List.mem_cons] at ha
    have hlt := h.lt_fresh a
    rw [hold, List.mem_append] at hlt
    rcases ha with ha | rfl | ha
    · have := hlt (.inl ha)
      omega
    · omega
    · have := hlt (.inr ha)
      omega
  · intro a w
    rw [hvalue]
    by_cases ha : a = l.fresh
    · have hno : (l.fresh, w) ∉ as ++ bs := fun hm => h.fresh_notin (List.mem_map_of_mem hm)
      rw [List.mem_append, not_or] at hno
      rw [ha, Function.update_self, List.mem_append, List.mem_cons]
      simp [hno.1, hno.2, eq_comm]
    · rw [Function.update_of_ne ha, h.value_iff, List.mem_append, List.mem_append, List.mem_cons]
      simp [ha]

theorem rep_append (h : Rep l nodes) (v : V) :
    ∃ l', append l v = some l' ∧ l'.fresh = l.fresh + 1 ∧ Rep l' (nodes ++ [(l.fresh, v)]) := by
  have hne : ∀ a ∈ nodes.map Prod.fst, a ≠ l.fresh := fun a ha => Nat.ne_of_lt (h.lt_fresh a ha)
  have hnil : Rep l (nodes ++ []) := by rwa [List.append_nil]
  cases ht : l.tail with
  | none =>
    have hnone : nodes.map Prod.fst = [] := List.getLast?_eq_none_iff.1 (h.tail_eq.symm.trans ht)
    have hhead : l.head = none := by rw [h.head_eq, hnone]; rfl
    simp only [append, ht, if_pos hhead]
    refine ⟨_, rfl, rfl, rep_insert hnil ?_ ?_ rfl rfl rfl ?_ ?_ ?_ ?_ ?_ ?_⟩
    all_goals simp [hnone]
  | some tail =>
    have hlast : (nodes.map Prod.fst).getLast? = some tail := h.tail_eq.symm.trans ht
    have htl : tail ∈ nodes.map Prod.fst := List.mem_of_getLast? hlast
    simp only [append, ht]
    refine ⟨_, rfl, rfl, rep_insert hnil ?_ (by simp) rfl rfl rfl ?_ ?_ ?_ (by simp) ?_ ?_⟩
    · rw [List.head?_append_of_ne_nil _ (List.ne_nil_of_mem htl)]
      exact h.head_eq
    · simp [Function.update_of_ne (hne tail htl).symm]
    · rw [hlast]
      simp
    · intro p hp
      rw [hlast] at hp
      cases hp
      simp
    · intro p hp hpl
      rw [List.append_nil] at hp
      have hpt : p ≠ tail := fun heq => hpl (by rw [hlast, heq])
      simp [Function.update_of_ne hpt, Function.update_of_ne (hne p hp)]
    · intro p hp _
      rw [List.append_nil] at hp
      simp [Function.update_of_ne (hne p hp)]

theorem filter_ne_middle {as bs : List (ℕ × V)} {a : ℕ} {v : V} (hd : ((as ++ (a, v) :: bs).map Prod.fst).Nodup) :
    ((as ++ (a, v) :: bs).filter fun p => p.1 ≠ a) = as ++ bs := by
  rw [List.map_append, List.map_cons, List.nodup_middle, List.nodup_cons, ← List.map_append] at hd
  have hkeep : ∀ l ⊆ as ++ bs, l.filter (fun p => p.1 ≠ a) = l := by
    intro l hl
    refine List.filter_eq_self.2 fun p hp => ?_
    simpa using fun (heq : p.1 = a) => hd.1 (List.mem_map.2 ⟨p, hl hp, heq⟩)
  rw [List.filter_append, List.filter_cons_of_neg (by simp), hkeep as (List.subset_append_left _ _),
    hkeep bs (List.subset_append_right _ _)]

theorem rep_remove (h : Rep l nodes) {a : ℕ} (ha : a ∈ nodes.map Prod.fst) :
    Rep (remove l a) (nodes.filter fun p => p.1 ≠ a) := by
  obtain ⟨⟨a, v⟩, hmem, rfl⟩ := List.mem_map.1 ha
  obtain ⟨as, bs, rfl⟩ := List.append_of_mem hmem
  rw [filter_ne_middle h.nodup]
  have hmap : (as ++ (a, v) :: bs).map Prod.fst = as.map Prod.fst ++ a :: bs.map Prod.fst := by simp
  have hd := h.nodup
  have hseg := h.seg
  have hhead := h.head_eq
  have htail := h.tail_eq
  rw [hmap] at hd hseg hhead htail
  obtain ⟨hprev, hnext⟩ := seg_at hseg
  rw [Option.or_none] at hprev hnext
  obtain ⟨hna, hab⟩ := List.nodup_cons.1 (List.nodup_middle.1 hd)
  have hdis : ∀ x ∈ as.map Prod.fst, ∀ y ∈ bs.map Prod.fst, x ≠ y := (List.nodup_append.1 hab).2.2
  have hasa : ∀ x ∈ as.map Prod.fst, x ≠ a := fun x hx heq => hna (heq ▸ List.mem_append_left _ hx)
  have hbsa : ∀ x ∈ bs.map Prod.fst, x ≠ a := fun x hx heq => hna (heq ▸ List.mem_append_right _ hx)
  refine ⟨?_, ?_, ?_, ?_, by rwa [List.map_append], ?_, ?_⟩
  · -- the head moves exactly when `a` was first
    rw [List.map_append]
    simp only [remove]
    cases has : as.map Prod.fst with
    | nil =>
      rw [hhead, has, List.nil_append, List.head?_cons, if_pos rfl, hnext, List.nil_append]
    | cons x xs =>
      have hxa : x ≠ a := hasa x (by rw [has]; exact List.mem_cons_self)
      rw [hhead, has, List.cons_append, List.head?_cons, if_neg (by simpa using hxa)]
      rfl
  · rw [List.map_append]
    simp only [remove]
    cases hbs : (bs.map Prod.fst).getLast? with
    | none =>
      have hnil := List.getLast?_eq_none_iff.1 hbs
      rw [htail, hnil, List.getLast?_append, List.getLast?_singleton, Option.some_or, if_pos rfl, hprev, List.append_nil]
    | some y =>
      have hya : y ≠ a := hbsa y (List.mem_of_getLast? hbs)
      have hcons : (a :: bs.map Prod.fst).getLast? = some y := by
        rw [List.getLast?_cons, hbs]
        rfl
      rw [htail, List.getLast?_append, hcons, Option.some_or, if_neg (by simpa using hya), List.getLast?_append, hbs,
        Option.some_or]
  · simp only [remove, h.size_eq, List.length_append, List.length_cons]
    omega
  · rw [List.map_append]
    refine seg_unlink hd ?_ ?_ ?_ ?_ hseg
    · intro p hp
      simp [remove, hprev, hp, hnext]
    · intro p hp
      simp [remove, hnext, hp, hprev]
    · intro p hp hpl
      simp only [remove, hprev]
      cases hl : (as.map Prod.fst).getLast? with
      | none => rfl
      | some q =>
        have hpq : p ≠ q := fun heq => hpl (by rw [hl, heq])
        exact Function.update_of_ne hpq _ _
    · intro p hp hpf
      simp only [remove, hnext]
      cases hf : (bs.map Prod.fst).head? with
      | none => rfl
      | some q =>
        have hpq : p ≠ q := fun heq => hpf (by rw [hf, heq])
        exact Function.update_of_ne hpq _ _
  · intro x hx
    refine h.lt_fresh x ?_
    rw [hmap]
    rw [List.map_append] at hx
    simp only [List.mem_append, List.mem_cons] at hx ⊢
    tauto
  · intro x w
    simp only [remove]
    by_cases hx : x = a
    · subst hx
      rw [Function.update_self]
      refine ⟨by simp, fun hm => absurd (List.mem_map_of_mem hm : x ∈ (as ++ bs).map Prod.fst) ?_⟩
      rwa [List.map_append]
    · rw [Function.update_of_ne hx, h.value_iff]
      simp [hx]

/-- `nodes` with the value at `a` changed -/
def modifyNodes (nodes : List (ℕ × V)) (a : ℕ) (f : V → V) : List (ℕ × V) :=
  nodes.map fun p => if p.1 = a then (p.1, f p.2) else p

theorem modifyNodes_fst (nodes : List (ℕ × V)) (a : ℕ) (f : V → V) :
    (modifyNodes nodes a f).map Prod.fst = nodes.map Prod.fst := by
  rw [modifyNodes, List.map_map]
  refine List.map_congr_left fun p _ => ?_
  by_cases h : p.1 = a <;> simp [h]

theorem rep_modify (h : Rep l nodes) (a : ℕ) (f : V → V) : Rep (modify l a f) (modifyNodes nodes a f) := by
  refine ⟨?_, ?_, ?_, ?_, ?_, ?_, ?_⟩
  · rw [modifyNodes_fst]; exact h.head_eq
  · rw [modifyNodes_fst]; exact h.tail_eq
  · simp only [modify, modifyNodes, List.length_map, h.size_eq]
  · rw [modifyNodes_fst]; exact h.seg
  · rw [modifyNodes_fst]; exact h.nodup
  · rw [modifyNodes_fst]; exact h.lt_fresh
  · intro x w
    simp only [modify, modifyNodes, List.mem_map]
    by_cases hx : x = a
    · subst hx
      rw [Function.update_self, Option.map_eq_some_iff]
      constructor
      · intro hw
        obtain ⟨v, hv, rfl⟩ := hw
        exact ⟨(x, v), (h.value_iff x v).1 hv, by simp⟩
      · intro hw
        obtain ⟨⟨y, v⟩, hmem, heq⟩ := hw
        by_cases hy : y = x
        · subst hy
          simp only [if_true, Prod.mk.injEq, true_and] at heq
          exact ⟨v, (h.value_iff y v).2 hmem, heq⟩
        · rw [if_neg hy] at heq
          exact absurd (congrArg Prod.fst heq) hy
    · rw [Function.update_of_ne hx, h.value_iff]
      constructor
      · intro hw
        exact ⟨(x, w), hw, by simp [hx]⟩
      · intro hw
        obtain ⟨⟨y, v⟩, hmem, heq⟩ := hw
        by_cases hy : y = a
        · rw [if_pos hy] at heq
          exact absurd ((congrArg Prod.fst heq).symm.trans hy) hx
        · rw [if_neg hy] at heq
          rwa [← heq]

end LinkedList

/-! ## Lists with their nodes -/

/-- a list and the nodes its links describe -/
structure DList (V : Type) where
  raw : LinkedList V
  nodes : List (ℕ × V)
  rep : LinkedList.Rep raw nodes

namespace DList

variable {V : Type}

def empty : DList V := ⟨LinkedList.empty, [], LinkedList.rep_empty⟩

/-- the node of this address, if it is allocated -/
def get (l : DList V) (a : ℕ) : Option V := l.raw.value a

/-- `append(value)` -/
def append (l : DList V) (v : V) : DList V :=
  match h : LinkedList.append l.raw v with
  | some raw => ⟨raw, l.nodes ++ [(l.raw.fresh, v)], by
      obtain ⟨raw', happ, -, hrep⟩ := LinkedList.rep_append l.rep v
      rw [h] at happ
      cases happ
      exact hrep⟩
  | none => l

/-- the address of the node that the next `append` makes -/
def fresh (l : DList V) : ℕ := l.raw.fresh

/-- `remove(node)`; through a dangling pointer it is undefined -/
def remove (l : DList V) (a : ℕ) : Option (DList V) :=
  if h : a ∈ l.nodes.map Prod.fst then
    some ⟨LinkedList.remove l.raw a, l.nodes.filter fun p => p.1 ≠ a, LinkedList.rep_remove l.rep h⟩
  else none

/-- write to the value of a node -/
def modify (l : DList V) (a : ℕ) (f : V → V) : DList V :=
  ⟨LinkedList.modify l.raw a f, LinkedList.modifyNodes l.nodes a f, LinkedList.rep_modify l.rep a f⟩

variable {l : DList V} {a : ℕ} {v : V}

@[simp] theorem nodes_empty : (empty : DList V).nodes = [] := rfl

@[simp] theorem nodes_append (l : DList V) (v : V) : (l.append v).nodes = l.nodes ++ [(l.fresh, v)] := by
  obtain ⟨raw, happ, -⟩ := LinkedList.rep_append l.rep v
  unfold append
  split
  · rfl
  · next h =>
    rw [h] at happ
    cases happ

@[simp] theorem nodes_modify (l : DList V) (a : ℕ) (f : V → V) :
    (l.modify a f).nodes = LinkedList.modifyNodes l.nodes a f := rfl

theorem nodup (l : DList V) : (l.nodes.map Prod.fst).Nodup := l.rep.nodup

theorem lt_fresh (h : a ∈ l.nodes.map Prod.fst) : a < l.fresh := l.rep.lt_fresh a h

theorem get_eq : l.get a = some v ↔ (a, v) ∈ l.nodes := l.rep.value_iff a v

theorem head_eq (l : DList V) : l.raw.head = (l.nodes.map Prod.fst).head? := l.rep.head_eq

theorem size_eq (l : DList V) : l.raw.size = l.nodes.length := l.rep.size_eq

theorem remove_eq (h : a ∈ l.nodes.map Prod.fst) :
    ∃ l', l.remove a = some l' ∧ l'.nodes = l.nodes.filter (fun p => p.1 ≠ a) ∧ l'.fresh = l.fresh :=
  ⟨_, dif_pos h, rfl, rfl⟩

theorem remove_some {l' : DList V} (h : l.remove a = some l') :
    a ∈ l.nodes.map Prod.fst ∧ l'.nodes = l.nodes.filter (fun p => p.1 ≠ a) ∧ l'.fresh = l.fresh := by
  by_cases ha : a ∈ l.nodes.map Prod.fst
  · rw [remove, dif_pos ha] at h
    cases h
    exact ⟨ha, rfl, rfl⟩
  · rw [remove, dif_neg ha] at h
    cases h

/-- an address is that of one node -/
theorem eq_of_mem {w : V} (hv : (a, v) ∈ l.nodes) (hw : (a, w) ∈ l.nodes) : v = w := by
  have := get_eq.2 hv
  rw [get_eq.2 hw] at this
  exact (Option.some.inj this).symm

theorem get_modify (l : DList V) (a : ℕ) (f : V → V) (b : ℕ) :
    (l.modify a f).get b = if b = a then (l.get a).map f else l.get b := by
  simp only [get, modify, LinkedList.modify, Function.update_apply]

theorem get_append (l : DList V) (v : V) (b : ℕ) :
    (l.append v).get b = if b = l.fresh then some v else l.get b := by
  refine Option.ext fun w => ?_
  rw [get_eq, nodes_append, List.mem_append, List.mem_singleton, Prod.mk.injEq, ← get_eq]
  by_cases hb : b = l.fresh
  · rw [if_pos hb]
    constructor
    · intro h
      rcases h with h | ⟨-, rfl⟩
      · exact absurd (lt_fresh (List.mem_map_of_mem (get_eq.1 h))) (by simp [hb])
      · rfl
    · intro h
      cases h
      exact .inr ⟨hb, rfl⟩
  · simp [hb]

theorem get_remove {l' : DList V} (h : l.remove a = some l') (b : ℕ) :
    l'.get b = if b = a then none else l.get b := by
  obtain ⟨-, hnodes, -⟩ := remove_some h
  refine Option.ext fun w => ?_
  rw [get_eq, hnodes, List.mem_filter, ← get_eq]
  by_cases hb : b = a <;> simp [hb]

theorem mem_nodes : a ∈ l.nodes.map Prod.fst ↔ ∃ v, l.get a = some v := by
  simp [get_eq]

theorem lt_fresh_of_get (h : l.get a = some v) : a < l.fresh := lt_fresh (mem_nodes.2 ⟨v, h⟩)

/-- a node after `append` is the new one, or an old one -/
theorem append_cases {b : ℕ} {w : V} (h : (l.append v).get b = some w) :
    (b = l.fresh ∧ w = v) ∨ (b ≠ l.fresh ∧ l.get b = some w) := by
  rw [get_append] at h
  split at h
  · next hb => exact .inl ⟨hb, (Option.some.inj h).symm⟩
  · next hb => exact .inr ⟨hb, h⟩

/-- a node after `modify` is the one written to, or another, as it was -/
theorem modify_cases {f : V → V} {b : ℕ} {w : V} (h : (l.modify a f).get b = some w) :
    (b = a ∧ ∃ v, l.get a = some v ∧ w = f v) ∨ (b ≠ a ∧ l.get b = some w) := by
  rw [get_modify] at h
  split at h
  · next hb =>
    obtain ⟨v, hv, rfl⟩ := Option.map_eq_some_iff.1 h
    exact .inl ⟨hb, v, hv, rfl⟩
  · next hb => exact .inr ⟨hb, h⟩

/-- what the write keeps of a value, the nodes keep -/
theorem modify_keeps {α : Type} {f : V → V} (g : V → α) (hf : ∀ v, g (f v) = g v) {b : ℕ} {w : V}
    (h : (l.modify a f).get b = some w) : ∃ v, l.get b = some v ∧ g w = g v := by
  rcases modify_cases h with ⟨rfl, v, hv, rfl⟩ | ⟨-, hold⟩
  · exact ⟨v, hv, hf v⟩
  · exact ⟨w, hold, rfl⟩

theorem get_of_remove {l' : DList V} (h : l.remove a = some l') {b : ℕ} {w : V} (hb : l'.get b = some w) :
    l.get b = some w := by
  rw [get_remove h] at hb
  split at hb
  · cases hb
  · exact hb

/-- removing the first node leaves the others -/
theorem remove_head {rest : List (ℕ × V)} (h : l.nodes = (a, v) :: rest) :
    ∃ l', l.remove a = some l' ∧ l'.nodes = rest ∧ l'.fresh = l.fresh := by
  have hd := l.nodup
  rw [h] at hd
  obtain ⟨l', hl', hnodes, hfresh⟩ := remove_eq (l := l) (a := a) (by rw [h]; exact List.mem_map_of_mem List.mem_cons_self)
  refine ⟨l', hl', ?_, hfresh⟩
  rw [hnodes, h]
  exact @LinkedList.filter_ne_middle V [] rest a v hd

end DList

/-! ## `qs::queue` -/

namespace DList

variable {V : Type}

/-- `empty()` -/
def isEmpty (q : DList V) : Bool := q.raw.size = 0

/-- `peek()`: a pointer to the value of the head -/
def peek (q : DList V) : Option ℕ := q.raw.head

/-- `dequeue()` -/
def dequeue (q : DList V) : Option V × DList V :=
  match q.raw.head with
  | none => (none, q)
  | some head => (q.get head, (q.remove head).getD q)

theorem isEmpty_eq (q : DList V) : q.isEmpty = q.nodes.isEmpty := by
  rw [isEmpty, q.size_eq]
  cases q.nodes <;> rfl

theorem isEmpty_iff (q : DList V) : q.isEmpty = true ↔ q.nodes = [] := by
  rw [isEmpty, decide_eq_true_eq, q.size_eq, List.length_eq_zero_iff]

theorem isEmpty_eq_false (q : DList V) : q.isEmpty = false ↔ q.nodes ≠ [] := by
  rw [← Bool.not_eq_true, q.isEmpty_iff]

theorem peek_eq (q : DList V) : q.peek = (q.nodes.map Prod.fst).head? := q.head_eq

theorem dequeue_cons {q : DList V} {a : ℕ} {v : V} {rest : List (ℕ × V)} (h : q.nodes = (a, v) :: rest) :
    q.dequeue.1 = some v ∧ q.dequeue.2.nodes = rest ∧ q.dequeue.2.fresh = q.fresh := by
  have hhead : q.raw.head = some a := by rw [q.head_eq, h]; rfl
  obtain ⟨q', hq', hnodes, hfresh⟩ := remove_head h
  have hget : q.get a = some v := get_eq.2 (by rw [h]; exact List.mem_cons_self)
  simp only [dequeue, hhead, hq', hget, Option.getD_some]
  exact ⟨trivial, hnodes, hfresh⟩

end DList

end K23Search
