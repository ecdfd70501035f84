/-
Runs of `insert`, `lookup` and `remove` on a `qs::hash_table`.

- `first_write_wins`: without `remove`, a table is the finite map of the first writes. Every operation is defined; every
  probe, also those of a rehash in progress, ends below `capacity`; an insert of a present key returns `end()` and
  changes no lookup.
- `remove_frame_iff`: `remove` marks a slot with the flag that also means "never used", so it cuts every probe path that
  runs through the slot. On a well-formed table it leaves the other keys alone iff the slot is on no other stored key's
  path (`Removable`).
- `removes_frame`: in a run whose removes all meet that condition, no key is stored twice, `get_size` counts the keys
  inserted and not removed since, and the condition stays exact.
- `remove_cuts_path`: keys 0 and 53 collide in a table of capacity 53; after `remove 0`, `lookup 53` is `end()`.
-/
import K23Search.Containers.HashTable
import K23Search.Lib.Run

namespace K23Search.HashTable

open K23Search.Lib

/-! ## Runs -/

inductive Op (K V : Type) where
  | insert (key : K) (value : V)
  | lookup (key : K)
  | remove (key : K)
deriving DecidableEq, Repr

variable {K V : Type}

/-- one call; `none`: the call is not defined -/
def step (κ : Keying K) (t : HashTable K V) : Op K V → Option (HashTable K V)
  | .insert key value => (insert κ t key value).map Prod.fst
  | .lookup key => (lookup κ t key).map fun _ => t
  | .remove key => remove κ t key

def Op.isRemove : Op K V → Bool
  | .remove _ => true
  | _ => false

/-- the writes of a run, oldest first -/
def writes (ops : List (Op K V)) : List (K × V) :=
  ops.filterMap fun
    | .insert key value => some (key, value)
    | _ => none

/-- the value of the first write to a key -/
def firstWrite (κ : Keying K) (ws : List (K × V)) (key : K) : Option V :=
  (ws.find? fun w => κ.eq w.1 key).map Prod.snd

/-- the keys present after one more call -/
def liveStep (κ : Keying K) (ks : List K) : Op K V → List K
  | .insert key _ => if ks.any fun k => κ.eq k key then ks else ks ++ [key]
  | .lookup _ => ks
  | .remove key => ks.filter fun k => !κ.eq k key

/-- the keys inserted and not removed since, each once, oldest first -/
def liveKeys (κ : Keying K) (ops : List (Op K V)) : List K := ops.foldl (liveStep κ) []

theorem liveKeys_snoc (κ : Keying K) (ops : List (Op K V)) (op : Op K V) :
    liveKeys κ (ops ++ [op]) = liveStep κ (liveKeys κ ops) op := by
  simp [liveKeys]

theorem writes_snoc (ops : List (Op K V)) (op : Op K V) :
    writes (ops ++ [op]) = writes ops ++ writes [op] := by
  simp [writes, List.filterMap_append]

theorem firstWrite_snoc (κ : Keying K) (ws : List (K × V)) (w : K × V) (key : K) :
    firstWrite κ (ws ++ [w]) key =
      if firstWrite κ ws key = none ∧ κ.eq w.1 key = true then some w.2 else firstWrite κ ws key := by
  unfold firstWrite
  rw [List.find?_append]
  cases ws.find? fun w => κ.eq w.1 key with
  | some e => simp
  | none =>
    cases hw : κ.eq w.1 key <;> simp [hw]

/-! ## The keys of a run -/

section Live

variable {κ : Keying K} {t : HashTable K V}

/-- the keys of the table are the live keys of the run, each once -/
structure Live (κ : Keying K) (ops : List (Op K V)) (t : HashTable K V) : Prop where
  wf : WF κ t
  size_eq : t.size = (liveKeys κ ops).length
  live : ∀ k, (∃ k' ∈ liveKeys κ ops, κ.eq k' k = true) ↔ look κ t k ≠ none
  distinct : (liveKeys κ ops).Pairwise fun a b => κ.eq a b = false

theorem live_init (hκ : κ.Lawful) (capacity : ℕ) : Live κ [] (ofCapacity capacity : HashTable K V) where
  wf := fresh_wf (findPrime_ge _).2
  size_eq := rfl
  live k := by simp [liveKeys, ofCapacity, look_fresh hκ (findPrime_ge _).2]
  distinct := List.Pairwise.nil

theorem live_lookup (hκ : κ.Lawful) {ops : List (Op K V)} (h : Live κ ops t) (key : K) :
    step κ t (.lookup key) = some t ∧ Live κ (ops ++ [.lookup key]) t := by
  have hkeys : liveKeys κ (ops ++ [Op.lookup key]) = liveKeys κ ops := by rw [liveKeys_snoc]; rfl
  refine ⟨?_, h.wf, by rw [hkeys]; exact h.size_eq, by rw [hkeys]; exact h.live, by rw [hkeys]; exact h.distinct⟩
  have hget := get_eq hκ h.wf key
  simp only [get, Option.map_eq_some_iff] at hget
  obtain ⟨p, hp, -⟩ := hget
  simp [step, hp]

theorem live_insert (hκ : κ.Lawful) {ops : List (Op K V)} (h : Live κ ops t) {key : K} {value : V} {t' : HashTable K V}
    {p : ℕ} (hins : insert κ t key value = some (t', p)) : Live κ (ops ++ [.insert key value]) t' := by
  obtain ⟨u, q, hins', hwf, hlook, hsize, -⟩ := insert_spec hκ h.wf key value
  rw [hins] at hins'
  cases hins'
  have hany : ((liveKeys κ ops).any fun k => κ.eq k key) = true ↔ look κ t key ≠ none := by
    rw [← h.live key, List.any_eq_true]
  by_cases hk : look κ t key = none
  · have hkeys : liveKeys κ (ops ++ [Op.insert key value]) = liveKeys κ ops ++ [key] := by
      rw [liveKeys_snoc, liveStep, if_neg (by rw [hany]; exact fun hc => hc hk)]
    refine ⟨hwf, ?_, fun k => ?_, ?_⟩
    · rw [hsize, hkeys, h.size_eq, if_pos hk]; simp
    · rw [hkeys, hlook]
      simp only [hk, true_and, List.mem_append, List.mem_singleton]
      by_cases heq : κ.eq key k = true
      · simp only [heq, if_true, ne_eq, reduceCtorEq, not_false_eq_true, iff_true]
        exact ⟨key, Or.inr rfl, heq⟩
      · rw [if_neg heq, ← h.live k]
        constructor
        · rintro ⟨k', hk' | rfl, he⟩
          · exact ⟨k', hk', he⟩
          · exact absurd he heq
        · rintro ⟨k', hk', he⟩
          exact ⟨k', Or.inl hk', he⟩
    · rw [hkeys, List.pairwise_append]
      refine ⟨h.distinct, List.pairwise_singleton _ _, fun a ha b hb => ?_⟩
      rw [List.mem_singleton.1 hb]
      by_contra hc
      exact (h.live key).1 ⟨a, ha, by simpa using hc⟩ hk
  · have hkeys : liveKeys κ (ops ++ [Op.insert key value]) = liveKeys κ ops := by
      rw [liveKeys_snoc, liveStep, if_pos (hany.2 hk)]
    refine ⟨hwf, ?_, fun k => ?_, by rw [hkeys]; exact h.distinct⟩
    · rw [hsize, hkeys, h.size_eq, if_neg hk]; rfl
    · rw [hkeys, hlook]
      simp only [hk, false_and, if_false]
      exact h.live k

end Live

/-! ## Inserts only: first write wins -/

section Inserts

variable {κ : Keying K}

/-- the writes so far, read off the table -/
structure Holds (κ : Keying K) (ops : List (Op K V)) (t : HashTable K V) : Prop extends Live κ ops t where
  look_eq : ∀ k, look κ t k = firstWrite κ (writes ops) k

theorem holds_step (hκ : κ.Lawful) {ops : List (Op K V)} {t : HashTable K V} (h : Holds κ ops t) {op : Op K V}
    (hop : op.isRemove = false) : ∃ t', step κ t op = some t' ∧ Holds κ (ops ++ [op]) t' := by
  cases op with
  | remove key => cases hop
  | lookup key =>
    obtain ⟨hs, hl⟩ := live_lookup hκ h.toLive key
    exact ⟨t, hs, hl, fun k => by rw [h.look_eq, writes_snoc]; simp [writes]⟩
  | insert key value =>
    obtain ⟨t', p, hins, hwf, hlook, -⟩ := insert_spec hκ h.wf key value
    refine ⟨t', by simp [step, hins], live_insert hκ h.toLive hins, fun k => ?_⟩
    rw [hlook, writes_snoc]
    show _ = firstWrite κ (writes ops ++ [(key, value)]) k
    rw [firstWrite_snoc, ← h.look_eq]
    by_cases heq : κ.eq key k = true
    · rw [look_congr hκ h.wf heq]
    · simp [heq]

theorem holds_run (hκ : κ.Lawful) (capacity : ℕ) (ops : List (Op K V)) (hops : ∀ op ∈ ops, op.isRemove = false) :
    ∃ t, run (step κ) (ofCapacity capacity) ops = some t ∧ Holds κ ops t := by
  induction ops using List.reverseRecOn with
  | nil => exact ⟨_, rfl, live_init hκ capacity, fun k => look_fresh hκ (findPrime_ge _).2 k⟩
  | append_singleton ops op ih =>
    obtain ⟨t, ht, hh⟩ := ih fun o ho => hops o (List.mem_append_left _ ho)
    obtain ⟨t', ht', hh'⟩ := holds_step hκ hh (hops op (by simp))
    exact ⟨t', by rw [run_snoc, ht]; exact ht', hh'⟩

/-- every probe of the table ends at a position below `capacity` -/
def ProbesEnd (κ : Keying K) (t : HashTable K V) : Prop :=
  ∀ key, ∃ p < t.capacity, findAvailablePosition κ t key = .at p

theorem WF.probesEnd {t : HashTable K V} (h : WF κ t) : ProbesEnd κ t := by
  intro key
  obtain ⟨n, hn, hfind, -⟩ := find_spec h.alloc_eq h.exists_free key
  exact ⟨_, path_lt (by omega) key n, hfind⟩

/-- **First write wins.** For every lawful hash and key equality, every initial capacity and every sequence of inserts
and lookups, all calls are defined and in the table reached
- `lookup` shows the value of the first write to an equal key, and `end()` when there is none;
- `get_size` is the number of distinct keys inserted;
- every probe ends below `capacity`, in the table and in every table a rehash of it passes through;
- inserting a present key returns `end()` and changes no lookup. -/
theorem first_write_wins (hκ : κ.Lawful) (capacity : ℕ) (ops : List (Op K V))
    (hops : ∀ op ∈ ops, op.isRemove = false) :
    ∃ t, run (step κ) (ofCapacity capacity) ops = some t ∧
      (∀ k, get κ t k = some (firstWrite κ (writes ops) k)) ∧
      t.getSize = (liveKeys κ ops).length ∧
      ProbesEnd κ t ∧
      (∀ n ≤ t.capacity, ∃ acc, (List.range n).foldlM (moveSlot (insertDepth κ 1) t)
        (fresh (findPrime (t.capacity * 2))) = some acc ∧ ProbesEnd κ acc) ∧
      ∀ k v, firstWrite κ (writes ops) k ≠ none →
        ∃ t', insert κ t k v = some (t', t'.capacity) ∧ ∀ k', get κ t' k' = get κ t k' := by
  obtain ⟨t, ht, hh⟩ := holds_run hκ capacity ops hops
  refine ⟨t, ht, fun k => ?_, hh.size_eq, hh.wf.probesEnd, fun n hn => ?_, fun k v hk => ?_⟩
  · rw [get_eq hκ hh.wf, hh.look_eq]
  · obtain ⟨acc, hacc, hm⟩ := resize_prefix hκ hh.wf hn
    exact ⟨acc, hacc 0, hm.wf.probesEnd⟩
  · rw [← hh.look_eq] at hk
    obtain ⟨t', p, hins, hwf, hlook, -, hp, -⟩ := insert_spec hκ hh.wf k v
    refine ⟨t', by rw [hins, hp hk], fun k' => ?_⟩
    rw [get_eq hκ hwf, get_eq hκ hh.wf, hlook]
    simp [hk]

end Inserts

/-- unsigned integers: `std::hash` is the identity -/
def uintKeying : Keying ℕ := ⟨id, fun a b => a == b⟩

theorem uintKeying_lawful : uintKeying.Lawful where
  refl k := by simp [uintKeying]
  symm h := by simp only [uintKeying, beq_iff_eq] at *; exact h.symm
  trans h h' := by simp only [uintKeying, beq_iff_eq] at *; rw [h, h']
  hash_eq h := by simpa [uintKeying] using h

theorem first_write_wins_colliding :
    ∃ t, run (step uintKeying) (ofCapacity 10) [.insert 0 'a', .insert 53 'b', .lookup 53, .insert 0 'c'] = some t ∧
      (∀ k, get uintKeying t k = some (firstWrite uintKeying [(0, 'a'), (53, 'b'), (0, 'c')] k)) ∧ t.getSize = 2 := by
  obtain ⟨t, h1, h2, h3, -⟩ := first_write_wins uintKeying_lawful 10
    [Op.insert 0 'a', .insert 53 'b', .lookup 53, .insert 0 'c'] (by decide)
  exact ⟨t, h1, h2, h3⟩

/-! ## Removal -/

section Removal

variable {κ : Keying K} {t : HashTable K V}

/-- slot `p` is on the probe path of a key stored in another slot, before that slot -/
def OnPath (κ : Keying K) (t : HashTable K V) (p : ℕ) : Prop :=
  ∃ k v n m, t.slots (path κ t k n) = some (k, v) ∧ n < t.capacity ∧ m < n ∧ path κ t k m = p

/-- if the key is stored, its slot is on no other stored key's path -/
def Removable (κ : Keying K) (t : HashTable K V) (key : K) : Prop :=
  ∀ p e, findAvailablePosition κ t key = .at p → t.slots p = some e → ¬ OnPath κ t p

/-- `remove(key)` makes `lookup(key)` `end()` and leaves every other key's lookup as it was -/
def RemoveFrame (κ : Keying K) (t : HashTable K V) (key : K) : Prop :=
  ∃ t', remove κ t key = some t' ∧ get κ t' key = some none ∧
    ∀ k, κ.eq key k = false → get κ t' k = get κ t k

/-- free slot `p` -/
def erase (t : HashTable K V) (p : ℕ) : HashTable K V :=
  { t with size := t.size - 1, slots := Function.update t.slots p none }

theorem erase_self (t : HashTable K V) (p : ℕ) : (erase t p).slots p = none := by simp [erase]

theorem erase_ne {p i : ℕ} (hip : i ≠ p) : (erase t p).slots i = t.slots i := by
  simp [erase, Function.update_of_ne hip]

theorem erase_slot {p i : ℕ} {e : K × V} (hi : (erase t p).slots i = some e) : i ≠ p ∧ t.slots i = some e := by
  by_cases hip : i = p
  · rw [hip, erase_self] at hi; cases hi
  · rw [erase_ne hip] at hi; exact ⟨hip, hi⟩

/-- the erased slot belonged to the count of occupied slots -/
theorem erase_size (h : WF κ t) {p : ℕ} {e : K × V} (hp : t.slots p = some e) :
    (erase t p).occupied t.capacity + 1 = t.size := by
  have hcount := occupied_update t (t.size - 1) p none t.capacity
  have hlt := h.lt_cap hp
  simp only [hlt, hp, Option.isSome_some, and_self, if_true, Option.isSome_none, Bool.false_eq_true, and_false,
    if_false, Nat.add_zero] at hcount
  rw [h.size_eq]
  exact hcount

theorem erase_wf (h : WF κ t) {p : ℕ} {e : K × V} (hp : t.slots p = some e) (hno : ¬ OnPath κ t p) :
    WF κ (erase t p) := by
  have hsize := erase_size h hp
  refine ⟨h.alloc_eq, h.cap_pos, fun i hi => ?_, ?_, ?_, fun i k v hi => ?_, fun i j k v k' v' hi hj heq => ?_⟩
  · by_cases hip : i = p
    · rw [hip, erase_self]
    · rw [erase_ne hip]; exact h.outside i hi
  · show t.size - 1 = (erase t p).occupied t.capacity
    omega
  · have := h.load
    show 4 * (t.size - 1) < 3 * t.capacity + 4
    omega
  · obtain ⟨-, hi'⟩ := erase_slot hi
    obtain ⟨n, hn, rfl, hocc⟩ := h.probe i k v hi'
    refine ⟨n, hn, rfl, fun m hm => ?_⟩
    have hmp : path κ t k m ≠ p := fun hc => hno ⟨k, v, n, m, hi', hn, hm, hc⟩
    show ((erase t p).slots (path κ t k m)).isSome
    rw [erase_ne hmp]
    exact hocc m hm
  · exact h.unique i j k v k' v' (erase_slot hi).2 (erase_slot hj).2 heq

theorem look_erase (hκ : κ.Lawful) (h : WF κ t) {p : ℕ} {key k : K} {v : V} (hp : t.slots p = some (k, v))
    (hk : κ.eq k key = true) (hwf : WF κ (erase t p)) (a : K) :
    look κ (erase t p) a = if κ.eq key a then none else look κ t a := by
  ext w
  rw [look_eq_some hκ hwf]
  split_ifs with heq
  · simp only [iff_false]
    rintro ⟨i, k', hi, hk'⟩
    obtain ⟨hip, hi'⟩ := erase_slot hi
    exact hip (h.unique i p k' w k v hi' hp (hκ.trans hk' (hκ.trans (hκ.symm heq) (hκ.symm hk))))
  · rw [look_eq_some hκ h]
    constructor
    · rintro ⟨i, k', hi, hk'⟩
      exact ⟨i, k', (erase_slot hi).2, hk'⟩
    · rintro ⟨i, k', hi, hk'⟩
      have hip : i ≠ p := by
        rintro rfl
        rw [hp] at hi
        cases hi
        exact heq (hκ.trans (hκ.symm hk) hk')
      exact ⟨i, k', by rw [erase_ne hip]; exact hi, hk'⟩

/-- **Remove specification**, where the slot is on no other path -/
theorem remove_spec (hκ : κ.Lawful) (h : WF κ t) {key : K} (hr : Removable κ t key) :
    ∃ t', remove κ t key = some t' ∧ WF κ t' ∧ (∀ k, look κ t' k = if κ.eq key k then none else look κ t k) ∧
      t'.size + (if look κ t key = none then 0 else 1) = t.size := by
  rcases find_cases hκ h key with ⟨p, k, v, hfind, hlt, hslot, heq⟩ | ⟨n, -, hfind, hlt, hslot, -, hno⟩
  · have hwf := erase_wf h hslot (hr p _ hfind hslot)
    have hlook : look κ t key = some v := (look_eq_some hκ h key v).2 ⟨p, k, hslot, heq⟩
    refine ⟨erase t p, by simp [remove, hfind, hslot, erase], hwf, look_erase hκ h hslot heq hwf, ?_⟩
    have := erase_size h hslot
    rw [hlook, if_neg (Option.some_ne_none v)]
    show t.size - 1 + 1 = t.size
    omega
  · have hlook : look κ t key = none := (look_eq_none hκ h key).2 hno
    refine ⟨t, by simp [remove, hfind, hslot], h, fun k => ?_, by simp [hlook]⟩
    split_ifs with heq
    · rw [← look_congr hκ h heq]; exact hlook
    · rfl

/-- a probe that meets the erased slot on its way stops there -/
theorem find_erase (h : WF κ t) {k : K} {v : V} {n m : ℕ}
    (hslot : t.slots (path κ t k n) = some (k, v)) (hn : n < t.capacity) (hm : m < n) :
    findAvailablePosition κ (erase t (path κ t k m)) k = .at (path κ t k m) := by
  set t' := erase t (path κ t k m)
  have hlt : path κ t k m < t.capacity := path_lt (by omega) k m
  obtain ⟨q, hq, hfind, hs, hb⟩ :=
    find_spec (κ := κ) (t := t') h.alloc_eq ⟨path κ t k m, hlt, erase_self _ _⟩ k
  have hpath : ∀ j, path κ t' k j = path κ t k j := fun _ => rfl
  obtain ⟨n', hn', hpn, hocc⟩ := h.probe _ k v hslot
  have hnn : n = n' := path_inj k hn hn' hpn
  subst hnn
  have hqm : q = m := by
    rcases lt_trichotomy q m with hlt' | rfl | hgt
    · -- before the erased slot the path holds other keys only
      exfalso
      have hne : path κ t k q ≠ path κ t k m := fun hc => by
        have := path_inj k (by omega) (by omega) hc
        omega
      obtain ⟨e, he⟩ := Option.isSome_iff_exists.1 (hocc q (by omega))
      have heq := hs e.1 e.2 (by rw [hpath]; show (erase t _).slots _ = _; rw [erase_ne hne]; exact he)
      have := path_inj k (by omega) hn (h.unique _ _ e.1 e.2 k v he hslot heq)
      omega
    · rfl
    · exact absurd (fun k' v' hk' => by rw [hpath, erase_self] at hk'; cases hk') (hb m hgt)
  rw [hfind, hpath, hqm]

/-- **Exactly when removal leaves the other keys alone**, on a well-formed table -/
theorem remove_frame_iff (hκ : κ.Lawful) (h : WF κ t) (key : K) : RemoveFrame κ t key ↔ Removable κ t key := by
  constructor
  · rintro ⟨t', hrem, -, hframe⟩ p e hfind hslot ⟨k, v, n, m, hk, hn, hm, rfl⟩
    have ht' : t' = erase t (path κ t k m) := by
      simp only [remove, hfind, hslot, Option.some.injEq] at hrem
      exact hrem.symm
    have hke : κ.eq key k = false := by
      by_contra hc
      have hc : κ.eq key k = true := by simpa using hc
      rcases find_cases hκ h key with ⟨p', k', v', hfind', -, hslot', heq⟩ | ⟨q, -, hfind', -, hnone, -, -⟩
      · rw [hfind] at hfind'
        cases hfind'
        have := path_inj k (by omega) hn (h.unique _ _ k' v' k v hslot' hk (hκ.trans heq hc))
        omega
      · rw [hfind] at hfind'
        injection hfind' with hp
        rw [← hp, hslot] at hnone
        cases hnone
    have hget : get κ t' k = some none := by
      rw [ht', get, lookup, find_erase h hk hn hm]
      simp [valueAt, erase]
    have hold : get κ t k = some (some v) := by
      rw [get_eq hκ h, (look_eq_some hκ h k v).2 ⟨_, k, hk, hκ.refl k⟩]
    have := hframe k hke
    rw [hget, hold] at this
    cases this
  · intro hr
    obtain ⟨t', hrem, hwf, hlook, -⟩ := remove_spec hκ h hr
    refine ⟨t', hrem, ?_, fun k hk => ?_⟩
    · rw [get_eq hκ hwf, hlook, if_pos (hκ.refl key)]
    · rw [get_eq hκ hwf, get_eq hκ h, hlook, hk]
      simp

/-- a key is live once or not at all -/
theorem countP_live (hκ : κ.Lawful) {ops : List (Op K V)} (h : Live κ ops t) (key : K) :
    (liveKeys κ ops).countP (fun k => κ.eq k key) = if look κ t key = none then 0 else 1 := by
  have hle : ∀ l : List K, l.Pairwise (fun a b => κ.eq a b = false) → l.countP (fun k => κ.eq k key) ≤ 1 := by
    intro l hl
    induction l with
    | nil => simp
    | cons a l ih =>
      rw [List.countP_cons]
      obtain ⟨h1, h2⟩ := List.pairwise_cons.1 hl
      split_ifs with ha
      · have : l.countP (fun k => κ.eq k key) = 0 := by
          rw [List.countP_eq_zero]
          intro b hb hc
          have := h1 b hb
          rw [hκ.trans ha (hκ.symm hc)] at this
          cases this
        omega
      · exact ih h2
  have hone := hle _ h.distinct
  have hpos : 0 < (liveKeys κ ops).countP (fun k => κ.eq k key) ↔ look κ t key ≠ none := by
    rw [List.countP_pos_iff]; exact h.live key
  split_ifs with hk
  · by_contra hc
    exact hpos.1 (by omega) hk
  · have := hpos.2 hk
    omega

theorem live_remove (hκ : κ.Lawful) {ops : List (Op K V)} (h : Live κ ops t) {key : K} (hr : Removable κ t key) :
    ∃ t', step κ t (.remove key) = some t' ∧ Live κ (ops ++ [.remove key]) t' := by
  obtain ⟨t', hrem, hwf, hlook, hsize⟩ := remove_spec hκ h.wf hr
  have hkeys : liveKeys κ (ops ++ [Op.remove key (V := V)]) = (liveKeys κ ops).filter fun k => !κ.eq k key := by
    rw [liveKeys_snoc]; rfl
  refine ⟨t', hrem, hwf, ?_, fun k => ?_, by rw [hkeys]; exact h.distinct.filter _⟩
  · rw [hkeys, ← List.countP_eq_length_filter]
    have hsplit := List.length_eq_countP_add_countP (fun k => !κ.eq k key) (l := liveKeys κ ops)
    have hone : (liveKeys κ ops).countP (fun k => decide ¬(!κ.eq k key) = true) =
        if look κ t key = none then 0 else 1 := by
      simp only [Bool.not_eq_true', Bool.not_eq_false, Bool.decide_eq_true]
      exact countP_live hκ h key
    rw [hone, ← h.size_eq] at hsplit
    omega
  · rw [hkeys, hlook]
    by_cases heq : κ.eq key k = true
    · simp only [heq, if_true, ne_eq, not_true_eq_false, iff_false, not_exists, List.mem_filter, Bool.not_eq_true',
        not_and, Bool.not_eq_true]
      rintro k' ⟨-, hk'⟩
      by_contra hc
      rw [hκ.trans (by simpa using hc) (hκ.symm heq)] at hk'
      cases hk'
    · rw [if_neg heq, ← h.live k]
      constructor
      · rintro ⟨k', hk', he⟩
        exact ⟨k', (List.mem_filter.1 hk').1, he⟩
      · rintro ⟨k', hk', he⟩
        refine ⟨k', List.mem_filter.2 ⟨hk', ?_⟩, he⟩
        by_contra hc
        exact heq (hκ.trans (hκ.symm (by simpa using hc)) he)

/-- every `remove` of the run finds its key's slot on no other key's path -/
def RemovesApart (κ : Keying K) (_ : List (Op K V)) (t : HashTable K V) (op : Op K V) : Prop :=
  ∀ key, op = .remove key → Removable κ t key

theorem live_run (hκ : κ.Lawful) (capacity : ℕ) (ops : List (Op K V))
    (hops : Meets (step κ) (ofCapacity capacity) (RemovesApart κ) ops) :
    ∃ t, run (step κ) (ofCapacity capacity) ops = some t ∧ Live κ ops t := by
  induction ops using List.reverseRecOn with
  | nil => exact ⟨_, rfl, live_init hκ capacity⟩
  | append_singleton ops op ih =>
    obtain ⟨t, ht, hl⟩ := ih hops.init
    rw [run_snoc, ht, Option.bind_some]
    cases op with
    | insert key value =>
      obtain ⟨t', p, hins, -⟩ := insert_spec hκ hl.wf key value
      exact ⟨t', by simp [step, hins], live_insert hκ hl hins⟩
    | lookup key => exact ⟨t, live_lookup hκ hl key⟩
    | remove key => exact live_remove hκ hl (hops.last ht key rfl)

/-- **Removal, over runs.** In every run of inserts, lookups and removes whose removes all find their slot on no other
stored key's path, all calls are defined and in the table reached no key is stored in two slots, `get_size` is the
number of distinct keys inserted and not removed since, and the next `remove(key)` makes `lookup(key)` `end()` and
leaves all other lookups alone exactly when it meets the same condition. -/
theorem removes_frame (hκ : κ.Lawful) (capacity : ℕ) (ops : List (Op K V))
    (hops : Meets (step κ) (ofCapacity capacity) (RemovesApart κ) ops) :
    ∃ t, run (step κ) (ofCapacity capacity) ops = some t ∧
      (∀ i j k v k' v', t.slots i = some (k, v) → t.slots j = some (k', v') → κ.eq k k' = true → i = j) ∧
      t.getSize = (liveKeys κ ops).length ∧
      ∀ key, RemoveFrame κ t key ↔ Removable κ t key := by
  obtain ⟨t, ht, hl⟩ := live_run hκ capacity ops hops
  exact ⟨t, ht, hl.wf.unique, hl.size_eq, remove_frame_iff hκ hl.wf⟩

end Removal

theorem removes_frame_apart :
    ∃ t, run (step uintKeying) (ofCapacity 10) [.insert 0 'a', .insert 1 'b', .remove 0] = some t ∧ t.getSize = 1 := by
  have hone : ∀ t : HashTable ℕ Char, t.capacity = 53 → t.slots 0 = some (0, 'a') → t.slots 1 = some (1, 'b') →
      (∀ i, i ≠ 0 → i ≠ 1 → t.slots i = none) → Removable uintKeying t 0 := by
    intro t hc h0 h1 hrest p e hfind hslot hon
    obtain ⟨k, v, n, m, hk, hn, hm, hp⟩ := hon
    -- keys 0 and 1 are in their home slots
    have hhome : path uintKeying t k n = k % 53 := by
      by_cases hi0 : path uintKeying t k n = 0
      · rw [hi0, h0] at hk; cases hk; exact hi0
      · by_cases hi1 : path uintKeying t k n = 1
        · rw [hi1, h1] at hk; cases hk; exact hi1
        · rw [hrest _ hi0 hi1] at hk; cases hk
    have hzero : path uintKeying t k n = path uintKeying t k 0 := by
      rw [hhome, path_zero, hc]; rfl
    have := path_inj k hn (by omega) hzero
    omega
  obtain ⟨t, h1, -, h3, -⟩ := removes_frame (V := Char) uintKeying_lawful 10
    [Op.insert 0 'a', .insert 1 'b', .remove 0] (by
      refine meets_cons (by intro k h; cases h) fun t ht => meets_cons (by intro k h; cases h) fun u hu =>
        meets_cons ?_ fun _ _ => fun pre _ _ _ h => by cases pre <;> cases h
      cases ht
      cases hu
      intro k hk
      cases hk
      refine hone _ rfl rfl rfl fun i hi0 hi1 => ?_
      change Function.update (Function.update (fun _ : ℕ => none) 0 (some (0, 'a'))) 1 (some (1, 'b')) i = none
      rw [Function.update_of_ne hi1, Function.update_of_ne hi0])
  exact ⟨t, h1, h3⟩

/-- **The shared flag cuts probe paths.** Keys 0 and 53 have home slot 0 in a table of capacity 53, so 53 is stored in
slot 1. `remove 0` frees slot 0, where the probe for 53 now stops: `lookup 53`, which showed its value before, is
`end()`. -/
theorem remove_cuts_path :
    ∃ t : HashTable ℕ Char, run (step uintKeying) (ofCapacity 10) [.insert 0 'a', .insert 53 'b'] = some t ∧
      get uintKeying t 53 = some (some 'b') ∧
      (∃ t', remove uintKeying t 0 = some t' ∧ get uintKeying t' 53 = some none) ∧ ¬ RemoveFrame uintKeying t 0 := by
  refine ⟨_, rfl, by decide, ⟨_, rfl, by decide⟩, fun h => ?_⟩
  obtain ⟨t', hrem, -, hframe⟩ := h
  cases hrem
  exact absurd (hframe 53 (by decide)) (by decide)

end K23Search.HashTable
