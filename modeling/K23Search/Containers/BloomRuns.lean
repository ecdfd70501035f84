/-
Runs over several Bloom filters: `add`, `merge`, the copy constructor and the copy assignment, in any order.

The filters start with any bits. A merge of another size throws; the caller goes on with the filter as it is. An element
counts as added to a filter when it was added to it or to the filter of which it is a copy.

- `Extends`: a filter with the same parameters and at least the same bits;
- `NoFalseNegatives`: all through a run, every element added is reported, and no operation clears a bit.

Results:
- `step_isSome`, `step_spec`: a step is defined unless it is an `add` that is not; each filter extends the one that it
  was before, or of which it is a copy, and reports what was added;
- `no_false_negatives_iff`: the property holds of a run exactly when its `add` calls are defined.
-/
import K23Search.Containers.Bloom

namespace K23Search.Bloom

open K23Search.Lib K23Search.Text

/-! ## Model -/

/-- `bloom(const bloom &)`: the `memcpy` of the bytes into new memory -/
def copyConstruct (other : Bloom) : Bloom where
  bitField := other.bitField.take other.size
  size := other.size
  hashFunctions := other.hashFunctions
  valid := ⟨by rw [List.length_take, other.valid.1, Nat.min_self], other.valid.2⟩

/-- `operator=`; `same`: `this == &other` -/
def copyAssign (same : Bool) (b other : Bloom) : Bloom :=
  if same then b
  else
    { bitField := other.bitField.take other.size
      size := other.size
      hashFunctions := other.hashFunctions
      valid := ⟨by rw [List.length_take, other.valid.1, Nat.min_self], other.valid.2⟩ }

/-- filters by their names -/
abbrev Filters := ℕ → Bloom

inductive Op where
  | add (f : ℕ) (el : CString)
  /-- with the length of `bytes` as the size -/
  | merge (f : ℕ) (bytes : List UInt8)
  | construct (g f : ℕ)
  | assign (g f : ℕ)
deriving DecidableEq

def step (s : Filters) : Op → Option Filters
  | .add f el => ((s f).add el).map (Function.update s f)
  | .merge f bytes => ((s f).merge bytes.length bytes).state.map (Function.update s f)
  | .construct g f => some (Function.update s g (copyConstruct (s f)))
  | .assign g f => some (Function.update s g (copyAssign (decide (g = f)) (s g) (s f)))

/-! ## What was added -/

/-- the filter of which `h` is a copy after the operation, itself if it is not the target of one -/
def Op.source : Op → ℕ → ℕ
  | .add _ _, h => h
  | .merge _ _, h => h
  | .construct g f, h => if h = g then f else h
  | .assign g f, h => if h = g then f else h

def Op.adds : Op → ℕ → List CString
  | .add f el, h => if h = f then [el] else []
  | _, _ => []

/-- the elements added to each filter -/
def addedAfter (ops : List Op) : ℕ → List CString :=
  ops.foldl (fun added op h => op.adds h ++ added (op.source h)) fun _ => []

/-- all through the run, the operations are defined, every element added is reported, and no bit is cleared -/
def NoFalseNegatives (s₀ : Filters) (ops : List Op) : Prop :=
  (∀ pre, pre <+: ops → ∃ s, run step s₀ pre = some s ∧ ∀ f, ∀ el ∈ addedAfter pre f, (s f).lookup el = some true) ∧
    ∀ pre op s t, pre ++ [op] <+: ops → run step s₀ pre = some s → step s op = some t →
      ∀ f q, (s (op.source f)).has q = true → (t f).has q = true

/-- an `add` makes probes that are defined -/
def AddDefined (s : Filters) : Op → Prop
  | .add f _ => Probeable (s f).size (s f).hashFunctions
  | _ => True

theorem addedAfter_snoc (ops : List Op) (op : Op) (f : ℕ) :
    addedAfter (ops ++ [op]) f = op.adds f ++ addedAfter ops (op.source f) := by
  rw [addedAfter, List.foldl_append]
  rfl

/-! ## One step -/

/-- the same parameters and at least the same bits -/
structure Extends (b b' : Bloom) : Prop where
  size_eq : b'.size = b.size
  functions_eq : b'.hashFunctions = b.hashFunctions
  bits : ∀ q, b.has q = true → b'.has q = true

theorem extends_refl (b : Bloom) : Extends b b := ⟨rfl, rfl, fun _ hq => hq⟩

theorem Extends.lookup {b b' : Bloom} {el : CString} (h : Extends b b') (hb : b.lookup el = some true) :
    b'.lookup el = some true := by
  rw [lookup_true] at hb ⊢
  intro i hi hik
  obtain ⟨p, hp, hbit⟩ := hb i hi (h.functions_eq ▸ hik)
  exact ⟨p, h.size_eq ▸ hp, h.bits p hbit⟩

theorem extends_add {b b' : Bloom} {el : CString} (h : b.add el = some b') : Extends b b' := by
  obtain ⟨hsize, hk, hbits⟩ := add_spec h
  exact ⟨hsize, hk, fun q hq => (hbits q).2 (Or.inl hq)⟩

/-- `lookup` makes the probes that `add` made -/
theorem lookup_add {b b' : Bloom} {el : CString} (h : b.add el = some b') : b'.lookup el = some true := by
  obtain ⟨hsize, hk, hbits⟩ := add_spec h
  have hdef := (probes_isSome b.size el _).2 ((add_isSome b el).1 (h ▸ rfl))
  rw [lookup_true, hk]
  intro i hi hik
  obtain ⟨p, hp⟩ := Option.isSome_iff_exists.1 (hdef i hi hik)
  exact ⟨p, hsize ▸ hp, (hbits p).2 (Or.inr ⟨i, hi, hik, hp⟩)⟩

theorem extends_merge (b : Bloom) (bytes : List UInt8) :
    ∃ b', (b.merge bytes.length bytes).state = some b' ∧ Extends b b' := by
  by_cases h : bytes.length = b.size
  · obtain ⟨m, hm, hsize, hk, hbits⟩ := merge_same h
    exact ⟨m, by rw [h, hm]; rfl, hsize, hk, fun q hq => (hbits q).2 (Or.inl hq)⟩
  · exact ⟨b, by rw [merge_other bytes h]; rfl, extends_refl b⟩

theorem copyConstruct_eq (other : Bloom) : copyConstruct other = other := by
  obtain ⟨bitField, size, k, rfl, hlt⟩ := other
  simp [copyConstruct]

theorem copyAssign_eq (s : Filters) (g f : ℕ) : copyAssign (decide (g = f)) (s g) (s f) = s f := by
  by_cases h : g = f
  · subst h
    simp [copyAssign]
  · rw [decide_eq_false h]
    exact copyConstruct_eq (s f)

theorem step_isSome (s : Filters) (op : Op) : (step s op).isSome = true ↔ AddDefined s op := by
  cases op with
  | add f el => rw [step, Option.isSome_map, add_isSome]; rfl
  | merge f bytes =>
    obtain ⟨b', hb', -⟩ := extends_merge (s f) bytes
    rw [step, hb']
    exact iff_of_true rfl trivial
  | construct g f => exact iff_of_true rfl trivial
  | assign g f => exact iff_of_true rfl trivial

/-- a filter is replaced by one that extends it -/
theorem extends_update {s : Filters} {f : ℕ} {b : Bloom} (h : Extends (s f) b) (g : ℕ) :
    Extends (s g) (Function.update s f b g) := by
  by_cases hg : g = f
  · subst hg
    rwa [Function.update_self]
  · rw [Function.update_of_ne hg]
    exact extends_refl _

theorem update_source (s : Filters) (g f h : ℕ) : Function.update s g (s f) h = s (if h = g then f else h) := by
  by_cases hg : h = g
  · rw [hg, Function.update_self, if_pos rfl]
  · rw [Function.update_of_ne hg, if_neg hg]

/-- **Step.** Each filter extends its source and reports what the operation adds. -/
theorem step_spec {s t : Filters} {op : Op} (h : step s op = some t) (f : ℕ) :
    Extends (s (op.source f)) (t f) ∧ ∀ el ∈ op.adds f, (t f).lookup el = some true := by
  cases op with
  | add g el =>
    obtain ⟨b, hb, rfl⟩ := Option.map_eq_some_iff.1 h
    refine ⟨extends_update (extends_add hb) f, fun x hx => ?_⟩
    rw [Op.adds] at hx
    split at hx
    · next hf =>
      rw [hf, Function.update_self, List.mem_singleton.1 hx]
      exact lookup_add hb
    · exact absurd hx List.not_mem_nil
  | merge g bytes =>
    obtain ⟨b, hb, hext⟩ := extends_merge (s g) bytes
    rw [step, hb] at h
    obtain rfl := Option.some.inj h
    exact ⟨extends_update hext f, fun x hx => absurd hx List.not_mem_nil⟩
  | construct g f' =>
    obtain rfl := Option.some.inj h
    rw [copyConstruct_eq, update_source]
    exact ⟨extends_refl _, fun x hx => absurd hx List.not_mem_nil⟩
  | assign g f' =>
    obtain rfl := Option.some.inj h
    rw [copyAssign_eq, update_source]
    exact ⟨extends_refl _, fun x hx => absurd hx List.not_mem_nil⟩

/-! ## Runs -/

variable {s₀ : Filters} {ops : List Op}

theorem run_reports (hm : Meets step s₀ (fun _ => AddDefined) ops) :
    ∃ s, run step s₀ ops = some s ∧ ∀ f, ∀ el ∈ addedAfter ops f, (s f).lookup el = some true := by
  induction ops using List.reverseRecOn with
  | nil => exact ⟨s₀, rfl, fun f el hel => absurd hel List.not_mem_nil⟩
  | append_singleton ops op ih =>
    obtain ⟨s, hs, hreports⟩ := ih hm.init
    obtain ⟨t, ht⟩ := Option.isSome_iff_exists.1 ((step_isSome s op).2 (hm.last hs))
    refine ⟨t, by rw [run_snoc, hs]; exact ht, fun f el hel => ?_⟩
    obtain ⟨hext, hadds⟩ := step_spec ht f
    rw [addedAfter_snoc, List.mem_append] at hel
    rcases hel with hel | hel
    · exact hadds el hel
    · exact hext.lookup (hreports _ el hel)

/-- **No false negatives.** Every element added is reported all through a run, and no bit is ever cleared, exactly when
each `add` of the run is on a filter whose probes are defined. -/
theorem no_false_negatives_iff (s₀ : Filters) (ops : List Op) :
    NoFalseNegatives s₀ ops ↔ Meets step s₀ (fun _ => AddDefined) ops := by
  constructor
  · intro ⟨hreports, _⟩ pre op post s heq hs
    obtain ⟨t, ht, -⟩ := hreports (pre ++ [op]) ⟨post, by rw [heq, List.append_assoc, List.singleton_append]⟩
    rw [run_snoc, hs, Option.bind_some] at ht
    exact (step_isSome s op).1 (ht ▸ rfl)
  · intro hm
    refine ⟨fun pre hpre => run_reports (hm.initial hpre), fun pre op s t hpre hs ht f => ?_⟩
    exact (step_spec ht f).1.bits

/-- 46341 hash functions: the square of the last index is no `int` -/
theorem add_many_functions :
    let b : Bloom := ⟨[0], 1, 46341, by decide⟩
    ¬NoFalseNegatives (fun _ => b) [.add 0 ⟨[97, 0], by decide⟩] := by
  intro b h
  obtain ⟨s, hs, -⟩ := h.1 _ (List.prefix_refl _)
  obtain ⟨t, ht, -⟩ := Option.bind_eq_some_iff.1 hs
  have hdef : Probeable 1 46341 := (step_isSome _ _).1 (Option.isSome_of_mem ht)
  exact absurd hdef (by decide)

end K23Search.Bloom
