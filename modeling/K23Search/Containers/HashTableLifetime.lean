/-
`clear` and the move operations of `qs::hash_table` (include/qs/hash_table.hpp). They leave a table with null arrays and
capacity 0, and nothing gives it arrays again: `find_available_position` computes `hash % capacity`, and `maybe_resize`
divides 0 by 0, which is not at least 0.75.

A program has the tables `0, 1, 2, ...`; a run of it is a sequence of `Act`. `live` says, of the sequence alone, which
tables have arrays.

Results:
- `null_undefined`: on a table with null arrays no insert, lookup or remove is defined;
- `calls_defined_iff`: a run is defined exactly when its inserts, lookups and removes are on live tables, and after it
  the next one is defined exactly on the live tables;
- `clear_then_lookup`: a cleared table.
-/
import K23Search.Containers.HashTableSlots

namespace K23Search.HashTable

open Lib

variable {K V : Type}

/-! ## Model -/

/-- what `clear` and a move leave: null arrays -/
def null : HashTable K V := ⟨0, 0, 0, fun _ => none⟩

/-- `clear()`: null arrays are left alone; the loop reads `keys[i]` below the capacity -/
def clear (t : HashTable K V) : Option (HashTable K V) :=
  if t.alloc = 0 then some t
  else if t.alloc < t.capacity then none
  else some null

inductive Act (K V : Type) where
  | construct (x capacity : ℕ)
  /-- `insert`, `lookup` or `remove` on table `x` -/
  | call (x : ℕ) (op : Op K V)
  /-- the loop from `begin()` to `end()` -/
  | iterate (x : ℕ)
  | clear (x : ℕ)
  /-- table `x` is constructed or assigned from `std::move(y)`; the two do the same -/
  | move (x y : ℕ)

/-- one step of the program; `none`: it is not defined -/
def act (κ : Keying K) (s : ℕ → HashTable K V) : Act K V → Option (ℕ → HashTable K V)
  | .construct x capacity => some (Function.update s x (ofCapacity capacity))
  | .call x op => (step κ (s x) op).map fun t => Function.update s x t
  | .iterate x => (s x).iterate.map fun _ => s
  | .clear x => (s x).clear.map fun t => Function.update s x t
  | .move x y => some (Function.update (Function.update s x (s y)) y null)

/-- the tables that have arrays after one more step -/
def liveAfter (l : ℕ → Bool) : Act K V → ℕ → Bool
  | .construct x _ => Function.update l x true
  | .call _ _ => l
  | .iterate _ => l
  | .clear x => Function.update l x false
  | .move x y => Function.update (Function.update l x (l y)) y false

/-- table `x` has not been cleared or moved from since it was constructed, or took the arrays of a table of which that
holds -/
def live (as : List (Act K V)) (x : ℕ) : Bool := as.foldl liveAfter (fun _ => true) x

theorem live_snoc (as : List (Act K V)) (a : Act K V) : live (as ++ [a]) = liveAfter (live as) a := by
  funext x
  simp only [live, List.foldl_append, List.foldl_cons, List.foldl_nil]
  rfl

/-! ## Null arrays -/

variable {κ : Keying K}

/-- **Modulo by capacity 0.** On a table with null arrays no call is defined. -/
theorem null_undefined (op : Op K V) : step κ null op = none := by
  have hfind : ∀ key, findAvailablePosition κ (null : HashTable K V) key = .undefined := fun key => rfl
  cases op with
  | insert key value =>
    have hresize : (null : HashTable K V).needsResize = false := rfl
    simp [step, insert, insertDepth, hresize, emplace, hfind]
  | lookup key => simp [step, lookup, hfind]
  | remove key => simp [step, remove, hfind]

theorem null_iterate : (null : HashTable K V).iterate = some [] := rfl

theorem clear_null : (null : HashTable K V).clear = some null := rfl

theorem clear_counted {t : HashTable K V} (h : Counted t) : t.clear = some null := by
  have h1 := h.alloc_eq
  have h2 := h.cap_pos
  rw [clear, if_neg (by omega), if_neg (by omega)]

/-! ## Runs -/

/-- a live table has its arrays, and a table that is not has none -/
def Arrays (l : ℕ → Bool) (s : ℕ → HashTable K V) : Prop := ∀ x, if l x = true then Counted (s x) else s x = null

theorem Arrays.update {l : ℕ → Bool} {s : ℕ → HashTable K V} (h : Arrays l s) (x : ℕ) {b : Bool} {t : HashTable K V}
    (ht : if b = true then Counted t else t = null) : Arrays (Function.update l x b) (Function.update s x t) := by
  intro y
  by_cases hy : y = x
  · subst hy
    simpa using ht
  · simpa [Function.update_of_ne hy] using h y

theorem Arrays.live {l : ℕ → Bool} {s : ℕ → HashTable K V} (h : Arrays l s) {x : ℕ} (hx : l x = true) :
    Counted (s x) := by
  have := h x
  rwa [if_pos hx] at this

theorem Arrays.not_live {l : ℕ → Bool} {s : ℕ → HashTable K V} (h : Arrays l s) {x : ℕ} (hx : l x = false) :
    s x = null := by
  have := h x
  rwa [if_neg (by simp [hx])] at this

/-- a call is defined on the live tables only -/
theorem Arrays.call_iff {l : ℕ → Bool} {s : ℕ → HashTable K V} (h : Arrays l s) (x : ℕ) (op : Op K V) :
    (∃ t, step κ (s x) op = some t) ↔ l x = true := by
  cases hx : l x with
  | true =>
    obtain ⟨t, ht, -⟩ := step_counted (κ := κ) (h.live hx) op
    exact ⟨fun _ => rfl, fun _ => ⟨t, ht⟩⟩
  | false => simp [h.not_live hx, null_undefined]

theorem Arrays.iterates {l : ℕ → Bool} {s : ℕ → HashTable K V} (h : Arrays l s) (x : ℕ) :
    ∃ visited, (s x).iterate = some visited := by
  cases hx : l x with
  | true => exact ⟨_, (iterate_eq (h.live hx)).1⟩
  | false => exact ⟨[], by rw [h.not_live hx, null_iterate]⟩

/-- **Step lemma.** A step other than a call is defined; a call is, on a live table; and afterwards the tables that have
arrays are the live ones. -/
theorem Arrays.act {l : ℕ → Bool} {s : ℕ → HashTable K V} (h : Arrays l s) (a : Act K V)
    (ha : ∀ x op, a = .call x op → l x = true) : ∃ s', act κ s a = some s' ∧ Arrays (liveAfter l a) s' := by
  cases a with
  | construct x capacity => exact ⟨_, rfl, h.update x (ofCapacity_counted capacity)⟩
  | call x op =>
    have hx := ha x op rfl
    obtain ⟨t, ht, hc⟩ := step_counted (κ := κ) (h.live hx) op
    refine ⟨Function.update s x t, by simp [HashTable.act, ht], ?_⟩
    have hnew := h.update x (b := true) hc
    rwa [← hx, Function.update_eq_self] at hnew
  | iterate x =>
    obtain ⟨visited, hv⟩ := h.iterates x
    exact ⟨s, by simp [HashTable.act, hv], h⟩
  | clear x =>
    have hclear : (s x).clear = some null := by
      cases hx : l x with
      | true => exact clear_counted (h.live hx)
      | false => rw [h.not_live hx, clear_null]
    exact ⟨_, by rw [HashTable.act, hclear]; rfl, h.update x rfl⟩
  | move x y => exact ⟨_, rfl, (h.update x (h y)).update y rfl⟩

theorem arrays_init (capacity : ℕ → ℕ) : Arrays (fun _ => true) fun x => (ofCapacity (capacity x) : HashTable K V) :=
  fun x => ofCapacity_counted (capacity x)

theorem arrays_run {s₀ s : ℕ → HashTable K V} (h₀ : Arrays (fun _ => true) s₀) {as : List (Act K V)}
    (hr : run (act κ) s₀ as = some s) : Arrays (live as) s := by
  refine run_induction (G := fun _ _ _ => True) (I := fun as (u : ℕ → HashTable K V) => Arrays (live as) u) h₀
    (fun as u a u' _ _ h hs => ?_) (meets_true _ _ _) hr
  have hcall : ∀ x op, a = .call x op → live as x = true := by
    rintro x op rfl
    obtain ⟨t, ht, -⟩ := Option.map_eq_some_iff.1 hs
    exact (h.call_iff x op).1 ⟨t, ht⟩
  obtain ⟨v, hv, hlive⟩ := h.act (κ := κ) a hcall
  rw [hs] at hv
  cases hv
  rw [live_snoc]
  exact hlive

/-- **Lifetime.** For tables `x` constructed with `capacity x` and every sequence of steps: the run is defined exactly
when each insert, lookup and remove in it is on a live table; and after it, iteration is defined on every table, and the
next insert, lookup or remove exactly on the live ones. -/
theorem calls_defined_iff (κ : Keying K) (capacity : ℕ → ℕ) (as : List (Act K V)) :
    ((∃ s, run (act κ) (fun x => ofCapacity (capacity x)) as = some s) ↔
      ∀ pre x op post, as = pre ++ .call x op :: post → live pre x = true) ∧
    ∀ s, run (act κ) (fun x => ofCapacity (capacity x)) as = some s → ∀ x,
      (∃ visited, (s x).iterate = some visited) ∧ ∀ op, (∃ t, step κ (s x) op = some t) ↔ live as x = true := by
  have h₀ := arrays_init (K := K) (V := V) capacity
  refine ⟨⟨?_, fun hlive => ?_⟩, fun s hs x => ?_⟩
  · rintro ⟨s, hs⟩ pre x op post rfl
    rw [run_append] at hs
    obtain ⟨u, hu, hs⟩ := Option.bind_eq_some_iff.1 hs
    obtain ⟨v, hv, -⟩ := Option.bind_eq_some_iff.1 hs
    obtain ⟨t, ht, -⟩ := Option.map_eq_some_iff.1 hv
    exact ((arrays_run h₀ hu).call_iff x op).1 ⟨t, ht⟩
  · induction as using List.reverseRecOn with
    | nil => exact ⟨_, rfl⟩
    | append_singleton as a ih =>
      obtain ⟨s, hs⟩ := ih fun pre x op post has => hlive pre x op (post ++ [a]) (by rw [has]; simp)
      obtain ⟨s', hs', -⟩ := (arrays_run h₀ hs).act (κ := κ) a fun x op ha => hlive as x op [] (by rw [ha])
      exact ⟨s', by rw [run_snoc, hs, Option.bind_some, hs']⟩
  · have h := arrays_run h₀ hs
    exact ⟨h.iterates x, h.call_iff x⟩

/-- table 1 takes the arrays of table 0, which is then constructed anew -/
theorem calls_defined_moved : ∃ s, run (act uintKeying) (fun _ => ofCapacity 10)
    [.call 0 (.insert 5 'a'), .move 1 0, .call 1 (.lookup 5), .construct 0 10, .call 0 (.insert 6 'b')] = some s ∧
      ∃ t, step uintKeying (s 1) (.remove 5) = some t := by
  obtain ⟨s, hs⟩ : ∃ s, run (act uintKeying) (fun _ => ofCapacity 10)
      [.call 0 (.insert 5 'a'), .move 1 0, .call 1 (.lookup 5), .construct 0 10, .call 0 (.insert 6 'b')] = some s :=
    ⟨_, rfl⟩
  exact ⟨s, hs, (((calls_defined_iff uintKeying (fun _ => 10) _).2 s hs 1).2 (.remove 5)).2 rfl⟩

/-- **A cleared table.** After one insert and `clear()`, `get_size()` is 0, and the next insert, lookup or remove takes
a hash modulo capacity 0. -/
theorem clear_then_lookup : ∃ s, run (act uintKeying) (fun _ => ofCapacity 10)
    [.call 0 (.insert 5 'a'), .clear 0] = some s ∧ (s 0).getSize = 0 ∧
      findAvailablePosition uintKeying (s 0) 5 = .undefined ∧ ∀ op, step uintKeying (s 0) op = none :=
  ⟨_, rfl, rfl, rfl, null_undefined⟩

end K23Search.HashTable
