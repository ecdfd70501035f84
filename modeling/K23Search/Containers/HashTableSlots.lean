/-
What holds of a `qs::hash_table` (include/qs/hash_table.hpp) after inserts and removes in any order, whatever the key
equality and the hash are: a removed key may cut the path to another one, which is then stored twice, but the size
counter and the slots stay in step.

- `Counted`: the arrays have length `capacity`, `size` is the number of occupied slots, and some slot is free.
- `begin`, `increment`, `postIncrement`, `iterate`: the iterators and the loop from `begin()` to `end()`.

Results:
- `insert_counted`, `lookup_counted`, `remove_counted`: on a `Counted` table every call is defined, and keeps it so;
- `iterate_eq`, `entries_eq`: on a `Counted` table the loop ends, and visits the occupied slots in order;
- `iteration`: both, for every run;
- `Table.iterate_raw`: the `entries` of a table of the engine are what the loop shows.
-/
import K23Search.Containers.HashTableRuns
import K23Search.Containers.Table

namespace K23Search.HashTable

open Lib

variable {K V : Type}

/-! ## Iterators -/

/-- `while (pos != capacity && keys[pos].is_gravestone) pos++`; `none`: a read outside the array -/
def skip (t : HashTable K V) : ℕ → ℕ → Option ℕ
  | 0, _ => none
  | fuel + 1, pos =>
    if pos = t.capacity then some pos
    else if t.alloc ≤ pos then none
    else match t.slots pos with
      | none => skip t fuel (pos + 1)
      | some _ => some pos

/-- `operator++()` on the iterator at `pos` -/
def increment (t : HashTable K V) (pos : ℕ) : Option ℕ := t.skip (t.capacity + 1) (pos + 1)

/-- `operator++(int)`: the iterator returned, and the one that has moved on -/
def postIncrement (t : HashTable K V) (pos : ℕ) : Option (ℕ × ℕ) :=
  (t.skip (t.capacity + 1) (pos + 1)).map fun next => (pos, next)

/-- `while (i < capacity && keys[i].is_gravestone) ++i` -/
def skipFrom (t : HashTable K V) : ℕ → ℕ → Option ℕ
  | 0, _ => none
  | fuel + 1, i =>
    if i < t.capacity then
      if t.alloc ≤ i then none
      else match t.slots i with
        | none => skipFrom t fuel (i + 1)
        | some _ => some i
    else some i

def «begin» (t : HashTable K V) : Option ℕ :=
  if 0 < t.size then t.skipFrom (t.capacity + 1) 0 else some t.capacity

/-- the loop to `end()`: the positions at which its body runs, with the key and value that the iterator shows there -/
def visits (t : HashTable K V) (next : ℕ → Option ℕ) : ℕ → ℕ → Option (List (ℕ × K × V))
  | 0, _ => none
  | fuel + 1, pos =>
    if pos = t.capacity then some []
    else (t.slots pos).bind fun e => (next pos).bind fun pos' => (visits t next fuel pos').map fun l => (pos, e) :: l

/-- `for (iter = begin(); iter != end(); ++iter)` -/
def iterate (t : HashTable K V) : Option (List (ℕ × K × V)) :=
  t.begin.bind fun pos => t.visits t.increment (t.capacity + 1) pos

/-- `for (iter = begin(); iter != end(); iter++)` -/
def iteratePost (t : HashTable K V) : Option (List (ℕ × K × V)) :=
  t.begin.bind fun pos => t.visits (fun pos => (t.postIncrement pos).map Prod.snd) (t.capacity + 1) pos

/-! ## The invariant -/

structure Counted (t : HashTable K V) : Prop where
  alloc_eq : t.alloc = t.capacity
  cap_pos : 53 ≤ t.capacity
  outside : ∀ i, t.capacity ≤ i → t.slots i = none
  size_eq : t.size = t.occupied t.capacity
  load : 4 * t.size < 3 * t.capacity + 4

theorem fresh_counted {c : ℕ} (hc : 53 ≤ c) : Counted (fresh c : HashTable K V) where
  alloc_eq := rfl
  cap_pos := hc
  outside _ _ := rfl
  size_eq := by simp [fresh, occupied]
  load := by simp [fresh]

theorem ofCapacity_counted (capacity : ℕ) : Counted (ofCapacity capacity : HashTable K V) :=
  fresh_counted (findPrime_ge _).2

variable {κ : Keying K} {t : HashTable K V}

/-- every probe ends, at a slot of the arrays -/
theorem Counted.find (h : Counted t) (key : K) : ∃ p < t.capacity, findAvailablePosition κ t key = .at p := by
  have hfree : ∃ i < t.capacity, t.slots i = none := by
    apply HashTable.exists_free
    have h1 := h.load
    have h2 := h.cap_pos
    rw [← h.size_eq]
    omega
  have hc := h.cap_pos
  obtain ⟨n, -, hfind, -⟩ := find_spec h.alloc_eq hfree key
  exact ⟨_, path_lt (by omega) key n, hfind⟩

/-- storing in a free slot -/
theorem Counted.store (h : Counted t) {p : ℕ} (hp : p < t.capacity) (hslot : t.slots p = none)
    (hroom : 4 * t.size < 3 * t.capacity) (key : K) (value : V) : Counted (store t p key value) where
  alloc_eq := h.alloc_eq
  cap_pos := h.cap_pos
  outside i hi := by
    have hi' : t.capacity ≤ i := hi
    rw [store_ne (by omega)]
    exact h.outside i hi'
  size_eq := by
    have hcount := occupied_update t (t.size + 1) p (some (key, value)) t.capacity
    simp only [hslot, Option.isSome_none, Bool.false_eq_true, and_false, if_false, hp, Option.isSome_some, and_self,
      if_true] at hcount
    show t.size + 1 = (HashTable.store t p key value).occupied t.capacity
    rw [h.size_eq]
    exact hcount.symm
  load := by
    show 4 * (t.size + 1) < 3 * t.capacity + 4
    omega

theorem emplace_counted (h : Counted t) (hroom : 4 * t.size < 3 * t.capacity) (key : K) (value : V) :
    ∃ t' p, emplace κ t key value = some (t', p) ∧ Counted t' ∧ t'.capacity = t.capacity ∧ t'.size ≤ t.size + 1 := by
  obtain ⟨p, hp, hfind⟩ := h.find (κ := κ) key
  cases hslot : t.slots p with
  | none => exact ⟨_, p, by simp [emplace, hfind, hp, hslot], h.store hp hslot hroom key value, rfl, le_rfl⟩
  | some e => exact ⟨t, t.capacity, by simp [emplace, hfind, hp, hslot], h, rfl, Nat.le_succ _⟩

/-- the loop of `resize`, up to slot `n` -/
theorem resize_counted_prefix (h : Counted t) {n : ℕ} (hn : n ≤ t.capacity) (d : ℕ) :
    ∃ acc, (List.range n).foldlM (moveSlot (insertDepth κ (d + 1)) t) (fresh (findPrime (t.capacity * 2))) = some acc ∧
      Counted acc ∧ acc.capacity = findPrime (t.capacity * 2) ∧ acc.size ≤ t.occupied n := by
  induction n with
  | zero => exact ⟨_, rfl, fresh_counted (findPrime_ge _).2, rfl, Nat.zero_le _⟩
  | succ n ih =>
    obtain ⟨acc, hacc, hc, hcap, hsize⟩ := ih (by omega)
    rw [List.range_succ, List.foldlM_append, hacc]
    cases hslot : t.slots n with
    | none =>
      refine ⟨acc, by simp [moveSlot, hslot], hc, hcap, ?_⟩
      rw [occupied_succ]
      omega
    | some e =>
      have hroom : 4 * acc.size < 3 * acc.capacity := by
        have h1 := h.load
        have h2 := (findPrime_ge (t.capacity * 2)).1
        have h3 := h.cap_pos
        have h4 : t.occupied n ≤ t.occupied t.capacity := (List.range_sublist.2 (by omega)).countP_le
        rw [h.size_eq] at h1
        rw [hcap]
        omega
      obtain ⟨acc', p, hem, hc', hcap', hsize'⟩ := emplace_counted (κ := κ) hc hroom e.1 e.2
      refine ⟨acc', by simp [moveSlot, hslot, insertDepth_room hroom, hem], hc', by rw [hcap', hcap], ?_⟩
      rw [occupied_succ, hslot]
      simp only [Option.isSome_some, if_true]
      omega

theorem maybeResize_counted (h : Counted t) (d : ℕ) :
    ∃ t', (if t.needsResize then resize (insertDepth κ (d + 1)) t else some t) = some t' ∧ Counted t' ∧
      4 * t'.size < 3 * t'.capacity := by
  cases hr : t.needsResize with
  | true =>
    obtain ⟨t', ht', hc, hcap, hsize⟩ := resize_counted_prefix (κ := κ) h le_rfl d
    refine ⟨t', by rw [if_pos rfl]; exact ht', hc, ?_⟩
    have h1 := h.load
    have h2 := (findPrime_ge (t.capacity * 2)).1
    have h3 := h.cap_pos
    rw [hcap]
    rw [← h.size_eq] at hsize
    omega
  | false =>
    refine ⟨t, by simp, h, ?_⟩
    simp only [needsResize, Bool.decide_and, Bool.and_eq_false_iff, decide_eq_false_iff_not] at hr
    have := h.cap_pos
    omega

theorem insert_counted (h : Counted t) (key : K) (value : V) :
    ∃ t' p, insert κ t key value = some (t', p) ∧ Counted t' := by
  obtain ⟨u, hu, hc, hroom⟩ := maybeResize_counted (κ := κ) h 0
  obtain ⟨t', p, hem, hc', -⟩ := emplace_counted (κ := κ) hc hroom key value
  exact ⟨t', p, by rw [insert, insertDepth, hu, Option.bind_some, hem], hc'⟩

theorem lookup_counted (h : Counted t) (key : K) : ∃ p, lookup κ t key = some p := by
  obtain ⟨p, -, hfind⟩ := h.find (κ := κ) key
  simp only [lookup, hfind]
  split
  · exact ⟨p, rfl⟩
  · exact ⟨t.capacity, rfl⟩

theorem remove_counted (h : Counted t) (key : K) : ∃ t', remove κ t key = some t' ∧ Counted t' := by
  obtain ⟨p, hp, hfind⟩ := h.find (κ := κ) key
  cases hslot : t.slots p with
  | none => exact ⟨t, by simp [remove, hfind, hslot], h⟩
  | some e =>
    refine ⟨erase t p, by simp only [remove, hfind, hslot, erase], h.alloc_eq, h.cap_pos, fun i hi => ?_, ?_, ?_⟩
    · have hi' : t.capacity ≤ i := hi
      rw [erase_ne (by omega)]
      exact h.outside i hi'
    · have hcount := occupied_update t (t.size - 1) p none t.capacity
      simp only [hslot, Option.isSome_some, hp, and_self, if_true, Option.isSome_none, Bool.false_eq_true, and_false,
        if_false] at hcount
      have hsize := h.size_eq
      show t.size - 1 = (erase t p).occupied t.capacity
      unfold erase
      omega
    · have := h.load
      show 4 * (t.size - 1) < 3 * t.capacity + 4
      omega

/-! ## The loop from begin() to end() -/

/-- the occupied slots from `pos` on -/
def occupiedFrom (t : HashTable K V) (pos : ℕ) : List (ℕ × K × V) :=
  (List.range' pos (t.capacity - pos)).filterMap fun i => (t.slots i).map fun e => (i, e)

theorem occupiedFrom_capacity (t : HashTable K V) : t.occupiedFrom t.capacity = [] := by
  simp [occupiedFrom]

theorem occupiedFrom_succ {pos : ℕ} (hpos : pos < t.capacity) :
    t.occupiedFrom pos = ((t.slots pos).map fun e => (pos, e)).toList ++ t.occupiedFrom (pos + 1) := by
  rw [occupiedFrom, show t.capacity - pos = t.capacity - (pos + 1) + 1 by omega, List.range'_succ, List.filterMap_cons]
  cases h : t.slots pos <;> rfl

/-- a probe for the next occupied slot ends, at that slot or at `capacity` -/
theorem skip_spec (ha : t.alloc = t.capacity) (fuel pos : ℕ) (hpos : pos ≤ t.capacity) (hf : t.capacity - pos < fuel) :
    ∃ p, t.skip fuel pos = some p ∧ p ≤ t.capacity ∧ pos ≤ p ∧ t.occupiedFrom pos = t.occupiedFrom p ∧
      (p ≠ t.capacity → (t.slots p).isSome = true) := by
  induction fuel generalizing pos with
  | zero => omega
  | succ fuel ih =>
    rw [skip]
    split_ifs with hend hout
    · exact ⟨pos, rfl, hpos, le_rfl, rfl, fun hne => absurd hend hne⟩
    · omega
    · cases hslot : t.slots pos with
      | none =>
        obtain ⟨p, hp, hle, hge, hocc, hsome⟩ := ih (pos + 1) (by omega) (by omega)
        refine ⟨p, hp, hle, by omega, ?_, hsome⟩
        rw [occupiedFrom_succ (by omega), hslot, ← hocc]
        rfl
      | some e => exact ⟨pos, rfl, hpos, le_rfl, rfl, fun _ => by rw [hslot]; rfl⟩

/-- the tests of the two loops agree up to `capacity` -/
theorem skipFrom_eq (ha : t.alloc = t.capacity) {fuel i : ℕ} (hi : i ≤ t.capacity) :
    t.skipFrom fuel i = t.skip fuel i := by
  induction fuel generalizing i with
  | zero => rfl
  | succ fuel ih =>
    rw [skipFrom, skip]
    rcases hi.eq_or_lt with rfl | hlt
    · rw [if_neg (lt_irrefl _), if_pos rfl]
    · rw [if_pos hlt, if_neg hlt.ne, if_neg (by omega), if_neg (by omega)]
      cases t.slots i with
      | none => exact ih (by omega)
      | some e => rfl

theorem begin_spec (h : Counted t) :
    ∃ p, t.begin = some p ∧ p ≤ t.capacity ∧ t.occupiedFrom 0 = t.occupiedFrom p ∧
      (p ≠ t.capacity → (t.slots p).isSome = true) := by
  unfold «begin»
  split_ifs with hsize
  · obtain ⟨p, hp, hle, -, hocc, hsome⟩ := skip_spec h.alloc_eq (t.capacity + 1) 0 (Nat.zero_le _) (by omega)
    exact ⟨p, by rw [skipFrom_eq h.alloc_eq (Nat.zero_le _), hp], hle, hocc, hsome⟩
  · refine ⟨t.capacity, rfl, le_rfl, ?_, fun hne => absurd rfl hne⟩
    -- the counter is right: no slot is occupied
    have hnone : t.occupied t.capacity = 0 := by rw [← h.size_eq]; omega
    rw [occupiedFrom_capacity, occupiedFrom, Nat.sub_zero, ← List.range_eq_range', List.filterMap_eq_nil_iff]
    intro i hi
    have hfree := List.countP_eq_zero.1 hnone i hi
    rw [Option.map_eq_none_iff]
    simpa using hfree

theorem visits_spec (ha : t.alloc = t.capacity) {next : ℕ → Option ℕ}
    (hnext : ∀ pos, next pos = t.skip (t.capacity + 1) (pos + 1)) {fuel pos : ℕ} (hpos : pos ≤ t.capacity)
    (hocc : pos ≠ t.capacity → (t.slots pos).isSome = true) (hf : t.capacity - pos < fuel) :
    t.visits next fuel pos = some (t.occupiedFrom pos) := by
  induction fuel generalizing pos with
  | zero => omega
  | succ fuel ih =>
    rw [visits]
    split_ifs with hend
    · rw [hend, occupiedFrom_capacity]
    · obtain ⟨e, he⟩ := Option.isSome_iff_exists.1 (hocc hend)
      obtain ⟨p, hp, hle, hge, hrest, hsome⟩ := skip_spec ha (t.capacity + 1) (pos + 1) (by omega) (by omega)
      have htail := ih hle hsome (by omega)
      rw [he, Option.bind_some, hnext, hp, Option.bind_some, htail, ← hrest]
      have hlt : pos < t.capacity := by omega
      rw [occupiedFrom_succ hlt, he]
      rfl

/-- **The loop.** With either increment it ends, and visits the occupied slots. -/
theorem iterate_eq (h : Counted t) : t.iterate = some (t.occupiedFrom 0) ∧ t.iteratePost = some (t.occupiedFrom 0) := by
  obtain ⟨p, hp, hle, hocc, hsome⟩ := begin_spec h
  rw [iterate, iteratePost, hp, Option.bind_some, Option.bind_some, hocc]
  refine ⟨visits_spec h.alloc_eq (fun _ => rfl) hle hsome (by omega),
    visits_spec h.alloc_eq (fun pos => ?_) hle hsome (by omega)⟩
  rw [postIncrement, Option.map_map]
  simp [Function.comp_def]

theorem occupiedFrom_zero (t : HashTable K V) :
    t.occupiedFrom 0 = (List.range t.capacity).filterMap fun i => (t.slots i).map fun e => (i, e) := by
  rw [occupiedFrom, Nat.sub_zero, ← List.range_eq_range']

theorem mem_occupiedFrom (h : Counted t) {i : ℕ} {e : K × V} : (i, e) ∈ t.occupiedFrom 0 ↔ t.slots i = some e := by
  rw [occupiedFrom_zero, List.mem_filterMap]
  constructor
  · rintro ⟨j, -, hj⟩
    obtain ⟨e', he', heq⟩ := Option.map_eq_some_iff.1 hj
    cases heq
    exact he'
  · intro hi
    refine ⟨i, List.mem_range.2 ?_, by rw [hi]; rfl⟩
    by_contra hout
    rw [h.outside i (by omega)] at hi
    cases hi

theorem occupiedFrom_fst (t : HashTable K V) :
    (t.occupiedFrom 0).map Prod.fst = (List.range t.capacity).filter fun i => (t.slots i).isSome := by
  rw [occupiedFrom_zero, List.map_filterMap]
  induction List.range t.capacity with
  | nil => rfl
  | cons i l ih =>
    rw [List.filterMap_cons, List.filter_cons, ih]
    cases h : t.slots i <;> rfl

theorem occupiedFrom_snd (t : HashTable K V) : (t.occupiedFrom 0).map Prod.snd = t.entries := by
  rw [occupiedFrom_zero, List.map_filterMap, entries]
  congr 1
  funext i
  cases t.slots i <;> rfl

theorem length_occupiedFrom (h : Counted t) : (t.occupiedFrom 0).length = t.getSize :=
  calc (t.occupiedFrom 0).length = ((t.occupiedFrom 0).map Prod.fst).length := (List.length_map _).symm
    _ = ((List.range t.capacity).filter fun i => (t.slots i).isSome).length := by rw [occupiedFrom_fst]
    _ = t.occupied t.capacity := List.countP_eq_length_filter.symm
    _ = t.getSize := h.size_eq.symm

/-- the loop shows the entries of the table -/
theorem entries_eq (h : Counted t) : t.iterate.map (List.map Prod.snd) = some t.entries :=
  calc t.iterate.map (List.map Prod.snd) = some ((t.occupiedFrom 0).map Prod.snd) := by
        rw [(iterate_eq h).1, Option.map_some]
    _ = some t.entries := by rw [occupiedFrom_snd]

theorem WF.counted (h : WF κ t) : Counted t := ⟨h.alloc_eq, h.cap_pos, h.outside, h.size_eq, h.load⟩

/-! ## Runs -/

theorem step_counted (h : Counted t) (op : Op K V) : ∃ t', step κ t op = some t' ∧ Counted t' := by
  cases op with
  | insert key value =>
    obtain ⟨t', p, hins, hc⟩ := insert_counted (κ := κ) h key value
    exact ⟨t', by simp [step, hins], hc⟩
  | lookup key =>
    obtain ⟨p, hp⟩ := lookup_counted (κ := κ) h key
    exact ⟨t, by simp [step, hp], h⟩
  | remove key => exact remove_counted h key

theorem run_counted (κ : Keying K) (capacity : ℕ) (ops : List (Op K V)) :
    ∃ t, run (step κ) (ofCapacity capacity) ops = some t ∧ Counted t := by
  induction ops using List.reverseRecOn with
  | nil => exact ⟨_, rfl, ofCapacity_counted capacity⟩
  | append_singleton ops op ih =>
    obtain ⟨t, ht, hc⟩ := ih
    rw [run_snoc, ht, Option.bind_some]
    exact step_counted hc op

/-- **Iteration.** After every sequence of inserts, lookups and removes on a new table: the loop from `begin()`, with
either increment, ends at `end()`; it visits each occupied slot once, no free one, and shows there the key and the value
of the slot; and it runs `get_size()` times. -/
theorem iteration (κ : Keying K) (capacity : ℕ) (ops : List (Op K V)) :
    ∃ t visited, run (step κ) (ofCapacity capacity) ops = some t ∧
      t.iterate = some visited ∧ t.iteratePost = some visited ∧ (visited.map Prod.fst).Nodup ∧
      (∀ i e, (i, e) ∈ visited ↔ t.slots i = some e) ∧ visited.length = t.getSize := by
  obtain ⟨t, ht, hc⟩ := run_counted κ capacity ops
  obtain ⟨hpre, hpost⟩ := iterate_eq hc
  refine ⟨t, t.occupiedFrom 0, ht, hpre, hpost, ?_, fun i e => mem_occupiedFrom hc, length_occupiedFrom hc⟩
  rw [occupiedFrom_fst]
  exact List.nodup_range.filter _

end K23Search.HashTable

namespace K23Search.Table

variable {K V : Type} [DecidableEq K] {hash : K → ℕ}

/-- the loop over a table of the engine ends, and shows its `entries` -/
theorem iterate_raw (t : Table hash V) : t.raw.iterate.map (List.map Prod.snd) = some t.entries :=
  HashTable.entries_eq t.wf.counted

end K23Search.Table
