/-
`qs::cyclic_buffer` (include/qs/cyclic_buffer.hpp): a ring of `size + 1` cells with one always free.

`push` never looks at `read`. On a full buffer it takes the free cell as well, `write` meets `read`, and what was full is
empty: the content is that of a queue that drops everything when it overflows (`lossy`), while the counter `size` goes
on counting. A division by a capacity of 0, an access outside the buffer and a read of a cell that was never written
are `none`.

Results:
- `Represents.push`, `Represents.pop`: the buffer holds what `lossy` holds;
- `pops_eq`: what a series of pops returns;
- `run_latest_iff`: the buffer keeps the latest `n` elements in a run exactly when no push of the run overflows it.
-/
import K23Search.Lib.Ring
import K23Search.Lib.Run
import Mathlib.Algebra.GroupWithZero.Nat

namespace K23Search

open K23Search.Lib

/-! ## Model -/

structure CyclicBuffer (T : Type) where
  size : ℕ
  capacity : ℕ
  /-- a cell that was never written is `none` -/
  buffer : ℕ → Option T
  read : ℕ
  write : ℕ

/-- `++` and `--` of a `std::size_t` -/
def sizeSucc (k : ℕ) : ℕ := (k + 1) % 2 ^ 64

def sizePred (k : ℕ) : ℕ := (k + (2 ^ 64 - 1)) % 2 ^ 64

theorem sizeSucc_eq {k : ℕ} (h : k + 1 < 2 ^ 64) : sizeSucc k = k + 1 := Nat.mod_eq_of_lt h

theorem sizePred_eq {k : ℕ} (h0 : k ≠ 0) (h : k < 2 ^ 64) : sizePred k = k - 1 := by
  rw [sizePred]
  omega

namespace CyclicBuffer

variable {T : Type}

/-- `cyclic_buffer(size)` -/
def make (size : ℕ) : CyclicBuffer T := ⟨0, sizeSucc size, fun _ => none, 0, 0⟩

def posIncrement (b : CyclicBuffer T) (pos : ℕ) : Option ℕ :=
  if b.capacity = 0 then none else some (sizeSucc pos % b.capacity)

def isEmpty (b : CyclicBuffer T) : Bool := b.write = b.read

def isFull (b : CyclicBuffer T) : Option Bool := (b.posIncrement b.write).map (· == b.read)

def push (b : CyclicBuffer T) (elem : T) : Option (CyclicBuffer T) :=
  if b.write < b.capacity then
    (b.posIncrement b.write).map fun write =>
      { b with
        buffer := Function.update b.buffer b.write (some elem)
        write := write
        size := sizeSucc b.size }
  else none

def pop (b : CyclicBuffer T) : Option (Option T × CyclicBuffer T) :=
  if b.isEmpty then some (none, b)
  else if b.read < b.capacity then (b.buffer b.read).bind fun ret =>
    (b.posIncrement b.read).map fun read => (some ret, { b with read := read, size := sizePred b.size })
  else none

inductive Op (T : Type) where
  | push (elem : T)
  | pop

def step (b : CyclicBuffer T) : Op T → Option (CyclicBuffer T)
  | .push elem => b.push elem
  | .pop => b.pop.map Prod.snd

/-- what a series of pops returns -/
def pops : ℕ → CyclicBuffer T → Option (List (Option T))
  | 0, _ => some []
  | m + 1, b => b.pop.bind fun r => (pops m r.2).map (r.1 :: ·)

/-! ## The queue of the latest elements -/

/-- a push on a queue of the latest `n` elements drops the oldest ones that are too many -/
def latest (n : ℕ) (xs : List T) : Op T → List T
  | .push elem => (xs ++ [elem]).drop (xs.length + 1 - n)
  | .pop => xs.tail

/-- the queue after a sequence of operations -/
def latestAfter (n : ℕ) (ops : List (Op T)) : List T := ops.foldl (latest n) []

/-- pops return `xs`, then the empty optional, and the size is that of `xs` -/
def Serves (b : CyclicBuffer T) (xs : List T) : Prop :=
  (∀ m, pops m b = some ((xs.take m).map some ++ List.replicate (m - xs.length) none)) ∧ b.size = xs.length

theorem latestAfter_snoc (n : ℕ) (ops : List (Op T)) (op : Op T) :
    latestAfter n (ops ++ [op]) = latest n (latestAfter n ops) op := by
  rw [latestAfter, latestAfter, List.foldl_append]
  rfl

theorem latestAfter_length (n : ℕ) (ops : List (Op T)) : (latestAfter n ops).length ≤ n := by
  induction ops using List.reverseRecOn with
  | nil => exact Nat.zero_le n
  | append_singleton ops op ih =>
    rw [latestAfter_snoc]
    cases op with
    | push elem =>
      simp only [latest, List.length_drop, List.length_append, List.length_singleton]
      omega
    | pop =>
      simp only [latest, List.length_tail]
      omega

/-! ## Representation -/

/-- a push on a queue of at most `n` elements that drops everything when it overflows -/
def lossy (n : ℕ) (xs : List T) (elem : T) : List T := if xs.length < n then xs ++ [elem] else []

/-- the cells from `read` to `write` hold `xs`; `n` is the argument of the constructor -/
structure Represents (n : ℕ) (b : CyclicBuffer T) (xs : List T) : Prop where
  capacity_eq : b.capacity = n + 1
  capacity_lt : n + 1 < 2 ^ 64
  length_le : xs.length ≤ n
  read_lt : b.read < n + 1
  write_eq : b.write = (b.read + xs.length) % (n + 1)
  cells : OnRing b.buffer (n + 1) b.read xs

variable {n : ℕ} {b : CyclicBuffer T} {xs : List T}

theorem represents_make (hn : n + 1 < 2 ^ 64) : Represents n (make n : CyclicBuffer T) [] where
  capacity_eq := sizeSucc_eq hn
  capacity_lt := hn
  length_le := Nat.zero_le n
  read_lt := Nat.succ_pos n
  write_eq := (Nat.zero_mod _).symm
  cells := ring_nil _ _ _

theorem Represents.write_lt (h : Represents n b xs) : b.write < n + 1 := by
  rw [h.write_eq]
  exact Nat.mod_lt _ (Nat.succ_pos n)

theorem Represents.posIncrement (h : Represents n b xs) {pos : ℕ} (hpos : pos < n + 1) :
    b.posIncrement pos = some ((pos + 1) % (n + 1)) := by
  have hlt := h.capacity_lt
  rw [CyclicBuffer.posIncrement, h.capacity_eq, if_neg (Nat.succ_ne_zero n), sizeSucc_eq (by omega)]

theorem Represents.isEmpty (h : Represents n b xs) : b.isEmpty = true ↔ xs = [] := by
  rw [CyclicBuffer.isEmpty, decide_eq_true_eq, h.write_eq]
  exact ring_empty_iff h.read_lt (Nat.lt_succ_of_le h.length_le)

theorem Represents.isFull (h : Represents n b xs) : b.isFull = some (decide (xs.length = n)) := by
  have hfull := ring_full_iff h.read_lt (Nat.lt_succ_of_le h.length_le)
  rw [CyclicBuffer.isFull, h.posIncrement h.write_lt, Option.map_some, Option.some.injEq, h.write_eq, Bool.eq_iff_iff,
    beq_iff_eq, decide_eq_true_eq, hfull]
  omega

/-- one push: the content is that of the lossy queue -/
theorem Represents.push (h : Represents n b xs) (elem : T) :
    ∃ b', b.push elem = some b' ∧ Represents n b' (lossy n xs elem) ∧ b'.size = sizeSucc b.size := by
  have hlen := h.length_le
  have hring := h.cells.push (Nat.lt_succ_of_le hlen) elem
  have hnext : (b.write + 1) % (n + 1) = (b.read + (xs.length + 1)) % (n + 1) := by
    rw [h.write_eq, offset_succ]
  rw [CyclicBuffer.push, h.capacity_eq, if_pos h.write_lt, h.posIncrement h.write_lt, hnext]
  refine ⟨_, rfl, ?_, rfl⟩
  rw [lossy]
  split
  · next hlt =>
    refine ⟨rfl, h.capacity_lt, ?_, h.read_lt, ?_, ?_⟩
    · rw [List.length_append, List.length_singleton]
      omega
    · rw [List.length_append, List.length_singleton]
    · rw [← h.write_eq] at hring
      exact hring
  · next hlt =>
    -- `write` comes around to `read`
    have hfull : xs.length + 1 = n + 1 := by omega
    refine ⟨rfl, h.capacity_lt, Nat.zero_le n, h.read_lt, ?_, ring_nil _ _ _⟩
    rw [hfull, Nat.add_mod_right]
    rfl

/-- one pop -/
theorem Represents.pop (h : Represents n b xs) :
    ∃ b', b.pop = some (xs.head?, b') ∧ Represents n b' xs.tail ∧
      b'.size = if xs = [] then b.size else sizePred b.size := by
  cases xs with
  | nil =>
    rw [CyclicBuffer.pop, if_pos (h.isEmpty.2 rfl)]
    exact ⟨b, rfl, h, rfl⟩
  | cons x xs =>
    have hne : ¬b.isEmpty = true := fun he => by have := h.isEmpty.1 he; cases this
    have hcell := h.cells.first
    rw [Nat.mod_eq_of_lt h.read_lt] at hcell
    rw [CyclicBuffer.pop, if_neg hne, h.capacity_eq, if_pos h.read_lt, hcell, h.posIncrement h.read_lt]
    refine ⟨_, rfl, ⟨rfl, h.capacity_lt, ?_, Nat.mod_lt _ (Nat.succ_pos n), ?_, h.cells.rest⟩, ?_⟩
    · have hlen := h.length_le
      rw [List.length_cons] at hlen
      exact Nat.le_of_succ_le hlen
    · rw [h.write_eq, List.length_cons, List.tail_cons, Nat.mod_add_mod, Nat.add_assoc, Nat.add_comm 1]
    · rw [if_neg (List.cons_ne_nil x xs)]

/-- a series of pops returns the content and then the empty optional -/
theorem pops_eq (h : Represents n b xs) (m : ℕ) :
    pops m b = some ((xs.take m).map some ++ List.replicate (m - xs.length) none) := by
  induction m generalizing b xs with
  | zero => simp [pops]
  | succ m ih =>
    obtain ⟨b', hpop, hrep, -⟩ := h.pop
    rw [pops, hpop, Option.bind_some, ih hrep]
    cases xs with
    | nil => simp [List.replicate_succ]
    | cons x xs => simp

/-! ## Runs -/

/-- no push of the sequence comes when the queue of the latest `n` elements is full -/
def Fits (n : ℕ) (ops : List (Op T)) : Prop :=
  ∀ pre elem, pre ++ [.push elem] <+: ops → (latestAfter n pre).length < n

/-- at every point of the run the buffer serves the latest `n` elements -/
def KeepsLatest (n : ℕ) (ops : List (Op T)) : Prop :=
  ∀ pre, pre <+: ops → ∃ b, run step (make n) pre = some b ∧ b.Serves (latestAfter n pre)

variable {ops : List (Op T)}

/-- without an overflow the buffer holds the latest `n` elements, and counts them -/
theorem run_tracks (hn : n + 1 < 2 ^ 64) (hfits : Fits n ops) :
    ∃ b, run step (make n) ops = some b ∧ Represents n b (latestAfter n ops) ∧
      b.size = (latestAfter n ops).length := by
  induction ops using List.reverseRecOn with
  | nil => exact ⟨make n, rfl, represents_make hn, rfl⟩
  | append_singleton ops op ih =>
    obtain ⟨b, hrun, hrep, hsize⟩ := ih fun pre elem hpre => hfits pre elem (hpre.trans (List.prefix_append _ _))
    have hle := hrep.length_le
    rw [run_snoc, hrun, Option.bind_some, latestAfter_snoc]
    cases op with
    | push elem =>
      have hlt := hfits ops elem (List.prefix_refl _)
      obtain ⟨b', hpush, hrep', hsize'⟩ := hrep.push elem
      have hlatest : latest n (latestAfter n ops) (.push elem) = latestAfter n ops ++ [elem] := by
        rw [latest, Nat.sub_eq_zero_of_le hlt, List.drop_zero]
      rw [lossy, if_pos hlt] at hrep'
      rw [hlatest]
      refine ⟨b', hpush, hrep', ?_⟩
      rw [hsize', hsize, List.length_append, List.length_singleton, sizeSucc_eq (by omega)]
    | pop =>
      obtain ⟨b', hpop, hrep', hsize'⟩ := hrep.pop
      refine ⟨b', by rw [step, hpop]; rfl, hrep', ?_⟩
      rw [hsize', hsize, latest, List.length_tail]
      split
      · next hnil => rw [hnil]; rfl
      · next hne =>
        rw [sizePred_eq (fun h0 => hne (List.length_eq_zero_iff.1 h0)) (by omega)]

-- stated for any values: comparing `b.size` with its successor would make `rfl` count
theorem capacity_push (b : CyclicBuffer T) (buffer : ℕ → Option T) (write size : ℕ) :
    ({ b with buffer := buffer, write := write, size := size } : CyclicBuffer T).capacity = b.capacity := rfl

theorem capacity_pop (b : CyclicBuffer T) (read size : ℕ) :
    ({ b with read := read, size := size } : CyclicBuffer T).capacity = b.capacity := rfl

/-- no operation changes the capacity -/
theorem step_capacity {b b' : CyclicBuffer T} {op : Op T} (h : step b op = some b') : b'.capacity = b.capacity := by
  cases op with
  | push elem =>
    rw [step, CyclicBuffer.push] at h
    split at h
    · obtain ⟨write, -, rfl⟩ := Option.map_eq_some_iff.1 h
      exact capacity_push b _ _ _
    · cases h
  | pop =>
    obtain ⟨r, hpop, rfl⟩ := Option.map_eq_some_iff.1 h
    rw [CyclicBuffer.pop] at hpop
    split at hpop
    · rw [← Option.some.inj hpop]
    · split at hpop
      · obtain ⟨ret, -, hpop⟩ := Option.bind_eq_some_iff.1 hpop
        obtain ⟨read, -, rfl⟩ := Option.map_eq_some_iff.1 hpop
        exact capacity_pop b _ _
      · cases hpop

theorem run_capacity {b : CyclicBuffer T} (hrun : run step (make n) ops = some b) : b.capacity = sizeSucc n := by
  apply run_inv (I := fun b : CyclicBuffer T => b.capacity = sizeSucc n) rfl _ hrun
  intro b op b' hb hstep
  rw [step_capacity hstep, hb]

/-- after an overflow the counter is more than the latest elements -/
theorem fits_of_keepsLatest (hn : n + 1 < 2 ^ 64) (h : KeepsLatest n ops) : Fits n ops := by
  induction ops using List.reverseRecOn with
  | nil =>
    intro pre elem hpre
    simp at hpre
  | append_singleton ops op ih =>
    have hfits := ih fun pre hpre => h pre (hpre.trans (List.prefix_append _ _))
    intro pre elem hpre
    rcases List.prefix_concat_iff.1 hpre with heq | hpre
    · obtain ⟨rfl, hop⟩ := List.append_inj' heq rfl
      obtain ⟨b, hrun, hrep, hsize⟩ := run_tracks hn hfits
      obtain ⟨b', hpush, -, hsize'⟩ := hrep.push elem
      obtain ⟨b'', hrun', -, hcount⟩ := h _ hpre
      rw [run_snoc, hrun, Option.bind_some, step, hpush, Option.some.injEq] at hrun'
      have hle := latestAfter_length n (pre ++ [Op.push elem])
      have hle' := hrep.length_le
      rw [← hrun', hsize', hsize, sizeSucc_eq (by omega)] at hcount
      omega
    · exact hfits pre elem hpre

/-- a buffer without a cell is only good for pops -/
theorem no_push_of_keepsLatest (hn : n + 1 = 2 ^ 64) (h : KeepsLatest n ops) (elem : T) : .push elem ∉ ops := by
  intro hmem
  obtain ⟨pre, post, rfl⟩ := List.append_of_mem hmem
  obtain ⟨b', hrun, -⟩ := h (pre ++ [.push elem]) ⟨post, by simp⟩
  obtain ⟨b, hb, hpush⟩ := run_snoc_some hrun
  have hcap := run_capacity hb
  rw [sizeSucc, hn, Nat.mod_self] at hcap
  rw [step, CyclicBuffer.push, hcap, if_neg (Nat.not_lt_zero _)] at hpush
  cases hpush

theorem run_pops (h : ∀ elem : T, .push elem ∉ ops) :
    run step (make n) ops = some (make n) ∧ latestAfter n ops = [] := by
  induction ops using List.reverseRecOn with
  | nil => exact ⟨rfl, rfl⟩
  | append_singleton ops op ih =>
    obtain ⟨hrun, hnil⟩ := ih fun elem hmem => h elem (List.mem_append_left _ hmem)
    rw [run_snoc, hrun, latestAfter_snoc, hnil]
    cases op with
    | push elem => exact absurd (by simp) (h elem)
    | pop => exact ⟨rfl, rfl⟩

theorem pops_make (n m : ℕ) : pops m (make n : CyclicBuffer T) = some (List.replicate m none) := by
  induction m with
  | zero => rfl
  | succ m ih =>
    have hpop : (make n : CyclicBuffer T).pop = some (none, make n) := rfl
    rw [pops, hpop, Option.bind_some, ih]
    rfl

/-- **Overwriting.** The buffer serves the latest `n` elements all through a sequence of operations exactly when none of
its pushes comes when `n` elements are held, and, for the one `n` whose capacity wraps to 0, it has no pushes. -/
theorem run_latest_iff (hn : n < 2 ^ 64) (ops : List (Op T)) :
    KeepsLatest n ops ↔ Fits n ops ∧ (n + 1 < 2 ^ 64 ∨ ∀ elem, .push elem ∉ ops) := by
  constructor
  · intro h
    by_cases hlt : n + 1 < 2 ^ 64
    · exact ⟨fits_of_keepsLatest hlt h, .inl hlt⟩
    · have hno := no_push_of_keepsLatest (by omega) h
      refine ⟨fun pre elem hpre => ?_, .inr hno⟩
      exact absurd (hpre.subset (by simp)) (hno elem)
  · intro h
    obtain ⟨hfits, hcap⟩ := h
    intro pre hpre
    rcases hcap with hlt | hno
    · obtain ⟨b, hrun, hrep, hsize⟩ := run_tracks hlt fun q elem hq => hfits q elem (hq.trans hpre)
      exact ⟨b, hrun, pops_eq hrep, hsize⟩
    · obtain ⟨hrun, hnil⟩ := run_pops (n := n) fun elem hmem => hno elem (hpre.subset hmem)
      refine ⟨make n, hrun, ?_⟩
      rw [hnil]
      exact ⟨fun m => by simp [pops_make], rfl⟩

theorem run_latest_two :
    2 < 2 ^ 64 ∧ (KeepsLatest 2 [Op.push 1, .push 2, .pop, .push 3] ↔
      Fits 2 [Op.push 1, .push 2, .pop, .push 3] ∧
        (2 + 1 < 2 ^ 64 ∨ ∀ elem, .push elem ∉ [Op.push 1, .push 2, .pop, .push 3])) :=
  ⟨by decide, run_latest_iff (by decide) _⟩

/-- two pushes into a buffer of one element: it is empty, and counts two -/
theorem push_full_discards : ¬KeepsLatest 1 [Op.push 1, .push 2] := by
  intro h
  obtain ⟨b, hrun, hpops, hsize⟩ := h _ (List.prefix_refl _)
  obtain ⟨b', hrun', hpops', -⟩ : ∃ b', run step (make 1) [Op.push 1, .push 2] = some b' ∧
      pops 1 b' = some [none] ∧ b'.size = 2 := ⟨_, rfl, rfl, rfl⟩
  rw [hrun', Option.some.injEq] at hrun
  subst hrun
  rw [hpops 1] at hpops'
  exact absurd hpops' (by decide)

end CyclicBuffer

end K23Search
