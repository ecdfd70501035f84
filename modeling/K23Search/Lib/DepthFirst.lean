/-
Depth-first search with a stack: the point on top is looked at and replaced by its children, the last of which is on top
then. How large the stack gets is a number of the tree (`need`), of which a stack has its own (`stackNeed`).

- `stackNeed_snoc`: the need of a stack is its length, or what it needs behind one turn;
- `length_le_stackNeed`: no less than its length;
- `stackNeed_le`: no more than there are points.
-/
import K23Search.Lib.MetricTree
import Mathlib.Data.List.Perm.Subperm

namespace K23Search.Lib

variable {P : Type*}

/-- the largest stack while the points `cs` are put on `i` others and looked at, if a point alone needs `f` -/
def listNeed (f : P → ℕ) : ℕ → List P → ℕ
  | i, [] => i
  | i, c :: cs => max (i + f c) (listNeed f (i + 1) cs)

/-- the largest stack while the points below `p` are looked at, down to a depth -/
def need (kids : P → List P) : ℕ → P → ℕ
  | 0, _ => 0
  | depth + 1, p => listNeed (need kids depth) 0 (kids p)

/-- the largest stack from this one on, in a tree of depth at most `n` -/
def stackNeed (kids : P → List P) (n : ℕ) (todo : List P) : ℕ := listNeed (need kids n) 0 todo

section ListNeed

variable {f g : P → ℕ}

theorem listNeed_congr {cs : List P} (h : ∀ c ∈ cs, f c = g c) (i : ℕ) : listNeed f i cs = listNeed g i cs := by
  induction cs generalizing i with
  | nil => rfl
  | cons c cs ih =>
    rw [listNeed, listNeed, h c List.mem_cons_self, ih fun c hc => h c (List.mem_cons_of_mem _ hc)]

theorem listNeed_add (f : P → ℕ) (i j : ℕ) (cs : List P) : listNeed f (i + j) cs = i + listNeed f j cs := by
  induction cs generalizing j with
  | nil => rfl
  | cons c cs ih =>
    rw [listNeed, listNeed, Nat.add_assoc i j 1, ih]
    omega

theorem length_le_listNeed (f : P → ℕ) (i : ℕ) (cs : List P) : i + cs.length ≤ listNeed f i cs := by
  induction cs generalizing i with
  | nil => exact Nat.le_refl _
  | cons c cs ih =>
    have h := ih (i + 1)
    rw [listNeed, List.length_cons]
    omega

theorem listNeed_snoc {p : P} {cs : List P} (h : f p = listNeed f 0 cs) (i : ℕ) (todo : List P) :
    listNeed f i (todo ++ [p]) = max (i + todo.length + 1) (listNeed f i (todo ++ cs)) := by
  induction todo generalizing i with
  | nil =>
    have hadd := listNeed_add f i 0 cs
    rw [List.nil_append, List.nil_append, listNeed, listNeed, h, List.length_nil]
    rw [Nat.add_zero] at hadd
    omega
  | cons c todo ih =>
    rw [List.cons_append, List.cons_append, listNeed, listNeed, ih, List.length_cons]
    omega

end ListNeed

section Need

variable {kids : P → List P} {rank : P → ℕ} {n : ℕ} {todo : List P} {p : P}

/-- children have a larger rank, and no rank is `n` -/
def Ranked (kids : P → List P) (rank : P → ℕ) (n : ℕ) : Prop := ∀ p, ∀ c ∈ kids p, rank p < rank c ∧ rank c < n

theorem need_succ (h : Ranked kids rank n) (depth : ℕ) (p : P) (hd : n ≤ depth + rank p) :
    need kids (depth + 1) p = need kids depth p := by
  induction depth generalizing p with
  | zero =>
    have hnil : kids p = [] := by
      refine List.eq_nil_iff_forall_not_mem.2 fun c hc => ?_
      have := h p c hc
      omega
    show listNeed (need kids 0) 0 (kids p) = 0
    rw [hnil]
    rfl
  | succ depth ih =>
    rw [need, need]
    apply listNeed_congr
    intro c hc
    have := h p c hc
    exact ih c (by omega)

theorem need_eq (h : Ranked kids rank n) (p : P) : need kids n p = listNeed (need kids n) 0 (kids p) := by
  rw [← need_succ h n p (Nat.le_add_right n _), need]

/-- **One turn.** -/
theorem stackNeed_snoc (h : Ranked kids rank n) (todo : List P) (p : P) :
    stackNeed kids n (todo ++ [p]) = max (todo.length + 1) (stackNeed kids n (todo ++ kids p)) := by
  rw [stackNeed, listNeed_snoc (need_eq h p), Nat.zero_add]
  rfl

theorem length_le_stackNeed (kids : P → List P) (n : ℕ) (todo : List P) : todo.length ≤ stackNeed kids n todo := by
  have h := length_le_listNeed (need kids n) 0 todo
  rwa [Nat.zero_add] at h

/-- a stack has no point twice, so the stacks are no larger than the number of points -/
theorem stackNeed_le (h : Ranked kids rank n) (hf : Forest (fun p c => c ∈ kids p) rank) (hnd : ∀ p, (kids p).Nodup)
    {all : List P} (hall : ∀ p, kids p ⊆ all) (fuel : ℕ) {seen : List P}
    (hw : Worklist (fun p c => c ∈ kids p) (fun _ => False) seen todo) (hseen : seen ⊆ all) (htodo : todo ⊆ all)
    (hfuel : all.length < fuel + seen.length) : stackNeed kids n todo ≤ all.length := by
  induction fuel generalizing seen todo with
  | zero =>
    have := (hw.nodup.subperm hseen).length_le
    omega
  | succ fuel ih =>
    rcases List.eq_nil_or_concat' todo with rfl | ⟨todo, p, rfl⟩
    · exact Nat.zero_le _
    · have hw' := hw.step hf (hnd p) (fun c hc => hc) fun c hc hno => absurd hc hno
      obtain ⟨htodo', hp⟩ := List.append_subset.1 htodo
      have hrest := ih hw' (List.append_subset.2 ⟨hseen, hp⟩) (List.append_subset.2 ⟨htodo', hall p⟩)
        (by rw [List.length_append, List.length_singleton]; omega)
      have hlen := (hw.todo_nodup.subperm htodo).length_le
      rw [List.length_append, List.length_singleton] at hlen
      rw [stackNeed_snoc h]
      exact Nat.max_le.2 ⟨hlen, hrest⟩

end Need

end K23Search.Lib
