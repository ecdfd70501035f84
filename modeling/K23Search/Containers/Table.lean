/-
The hash tables of the engine. `Table` is a `qs::hash_table` whose keys are compared by equality, together with the
proof that it is well formed (`WF`), so that every operation on it is defined; `modify` writes to a value through an
iterator, `entries` is the loop from `begin()` to `end()`. `WordSet` is a `qs::hash_set` over a `Table`.

Results:
- `get_insert`, `get_modify`: insertion is first-write-wins, and writes change one value;
- `modify_insert`, `modify_modify`, `modify_congr`: writes through an iterator add up;
- `mem_entries`, `keys_nodup`, `size_eq`: the loop visits every entry once, and `get_size()` counts them;
- `WordSet.mem_insert`, `WordSet.size_eq`: the same for sets.
-/
import K23Search.Containers.HashTable
import Mathlib.Data.List.Nodup

namespace K23Search

/-! ## Model -/

/-- keys with this hash, compared by equality -/
def hashKeying {K : Type} [DecidableEq K] (hash : K → ℕ) : Keying K := ⟨hash, fun a b => a = b⟩

theorem hashKeying_lawful {K : Type} [DecidableEq K] (hash : K → ℕ) : (hashKeying hash).Lawful where
  refl k := by simp [hashKeying]
  symm h := by simpa [hashKeying, eq_comm] using h
  trans h h' := by simp only [hashKeying, decide_eq_true_eq] at *; exact h.trans h'
  hash_eq h := by simp only [hashKeying, decide_eq_true_eq] at *; rw [h]

namespace HashTable

variable {K V : Type}

/-- write to the value that the iterator of `lookup(key)` points to -/
def modify (κ : Keying K) (t : HashTable K V) (key : K) (f : V → V) : HashTable K V :=
  match lookup κ t key with
  | some pos => { t with slots := Function.update t.slots pos ((t.slots pos).map fun e => (e.1, f e.2)) }
  | none => t

/-- what the loop from `begin()` to `end()` shows -/
def entries (t : HashTable K V) : List (K × V) := (List.range t.capacity).filterMap t.slots

variable {κ : Keying K} {t : HashTable K V}

/-- the slots after a write: the same keys, one value changed -/
theorem modify_slots (hκ : κ.Lawful) (h : WF κ t) (key : K) (f : V → V) (i : ℕ) :
    (t.modify κ key f).slots i = (t.slots i).map fun e => (e.1, if κ.eq e.1 key then f e.2 else e.2) := by
  rcases find_cases hκ h key with ⟨p, k, v, hfind, hlt, hslot, heq⟩ | ⟨n, -, hfind, hlt, hslot, -, hno⟩
  · have hlook : lookup κ t key = some p := by simp [lookup, hfind, hslot]
    simp only [modify, hlook]
    by_cases hip : i = p
    · subst hip
      rw [Function.update_self, hslot]
      simp [heq]
    · rw [Function.update_of_ne hip]
      cases hi : t.slots i with
      | none => rfl
      | some e =>
        have hne : κ.eq e.1 key = false := by
          by_contra hkey
          exact hip (h.unique i p e.1 e.2 k v hi hslot (hκ.trans (by simpa using hkey) (hκ.symm heq)))
        simp [hne]
  · have hlook : lookup κ t key = some t.capacity := by simp [lookup, hfind, hslot]
    have hsame : ∀ e, t.slots i = some e → κ.eq e.1 key = false := fun e he => hno i e.1 e.2 he
    simp only [modify, hlook, h.outside t.capacity le_rfl, Option.map_none]
    by_cases hic : i = t.capacity
    · rw [hic, Function.update_self, h.outside t.capacity le_rfl, Option.map_none]
    · rw [Function.update_of_ne hic]
      cases hi : t.slots i with
      | none => rfl
      | some e => simp [hsame e hi]

theorem ext_fields {t t' : HashTable K V} (hsize : t.size = t'.size) (hcap : t.capacity = t'.capacity)
    (hslots : t.slots = t'.slots) (halloc : t.alloc = t'.alloc) : t = t' := by
  cases t
  cases t'
  simp_all

theorem modify_fields (κ : Keying K) (t : HashTable K V) (key : K) (f : V → V) :
    (t.modify κ key f).size = t.size ∧ (t.modify κ key f).capacity = t.capacity ∧
      (t.modify κ key f).alloc = t.alloc := by
  unfold modify
  split <;> exact ⟨rfl, rfl, rfl⟩

theorem modify_wf (hκ : κ.Lawful) (h : WF κ t) (key : K) (f : V → V) : WF κ (t.modify κ key f) := by
  obtain ⟨hsize, hcap, halloc⟩ := modify_fields κ t key f
  have hslots := modify_slots hκ h key f
  have hsome : ∀ i, ((t.modify κ key f).slots i).isSome = (t.slots i).isSome := by
    intro i
    rw [hslots]
    cases t.slots i <;> rfl
  have hold : ∀ {i k v}, (t.modify κ key f).slots i = some (k, v) → ∃ w, t.slots i = some (k, w) := by
    intro i k v hi
    rw [hslots] at hi
    obtain ⟨e, he, hke⟩ := Option.map_eq_some_iff.1 hi
    cases hke
    exact ⟨e.2, he⟩
  have hpath : ∀ k n, path κ (t.modify κ key f) k n = path κ t k n := by
    intro k n
    simp only [path, hcap]
  constructor
  case alloc_eq => rw [halloc, hcap, h.alloc_eq]
  case cap_pos => rw [hcap]; exact h.cap_pos
  case outside =>
    intro i hi
    rw [hslots, h.outside i (by rwa [hcap] at hi), Option.map_none]
  case size_eq =>
    rw [hsize, hcap, h.size_eq]
    simp only [occupied, hsome]
  case load => rw [hsize, hcap]; exact h.load
  case probe =>
    intro i k v hi
    obtain ⟨w, hw⟩ := hold hi
    obtain ⟨n, hn, hin, hocc⟩ := h.probe i k w hw
    refine ⟨n, by rwa [hcap], by rw [hpath]; exact hin, fun m hm => ?_⟩
    rw [hpath, hsome]
    exact hocc m hm
  case unique =>
    intro i j k v k' v' hi hj heq
    obtain ⟨w, hw⟩ := hold hi
    obtain ⟨w', hw'⟩ := hold hj
    exact h.unique i j k w k' w' hw hw' heq

/-- two writes through iterators to one value -/
theorem modify_modify (hκ : κ.Lawful) (h : WF κ t) (key : K) (f g : V → V) :
    (t.modify κ key f).modify κ key g = t.modify κ key (g ∘ f) := by
  obtain ⟨hsize, hcap, halloc⟩ := modify_fields κ (t.modify κ key f) key g
  obtain ⟨hsize₁, hcap₁, halloc₁⟩ := modify_fields κ t key f
  obtain ⟨hsize₂, hcap₂, halloc₂⟩ := modify_fields κ t key (g ∘ f)
  have hslots : ((t.modify κ key f).modify κ key g).slots = (t.modify κ key (g ∘ f)).slots := by
    funext i
    rw [modify_slots hκ (modify_wf hκ h key f), modify_slots hκ h, modify_slots hκ h, Option.map_map]
    congr 1
    funext e
    by_cases hkey : κ.eq e.1 key = true <;> simp [hkey]
  apply ext_fields ?_ ?_ hslots ?_
  · rw [hsize, hsize₁, hsize₂]
  · rw [hcap, hcap₁, hcap₂]
  · rw [halloc, halloc₁, halloc₂]

/-- writes that agree on the stored value -/
theorem modify_congr (hκ : κ.Lawful) (h : WF κ t) {key : K} {f g : V → V}
    (hfg : ∀ i e, t.slots i = some e → κ.eq e.1 key = true → f e.2 = g e.2) : t.modify κ key f = t.modify κ key g := by
  obtain ⟨hsize, hcap, halloc⟩ := modify_fields κ t key f
  obtain ⟨hsize', hcap', halloc'⟩ := modify_fields κ t key g
  refine ext_fields (hsize.trans hsize'.symm) (hcap.trans hcap'.symm) ?_ (halloc.trans halloc'.symm)
  funext i
  rw [modify_slots hκ h, modify_slots hκ h]
  cases hs : t.slots i with
  | none => rfl
  | some e =>
    by_cases hkey : κ.eq e.1 key = true
    · simp [hkey, hfg i e hs hkey]
    · simp [hkey]

theorem modify_id (hκ : κ.Lawful) (h : WF κ t) (key : K) : t.modify κ key id = t := by
  obtain ⟨hsize, hcap, halloc⟩ := modify_fields κ t key id
  refine ext_fields hsize hcap ?_ halloc
  funext i
  rw [modify_slots hκ h]
  cases t.slots i <;> simp

/-- an absent key is stored at the free slot its probe ends at, whatever its value -/
theorem insert_store (hκ : κ.Lawful) (h : WF κ t) {key : K} (hk : look κ t key = none) :
    ∃ u p, u.slots p = none ∧ (∀ i k v, u.slots i = some (k, v) → κ.eq k key = false) ∧
      ∀ value, insert κ t key value = some (store u p key value, p) := by
  obtain ⟨u, hu, hwf, -, -, hlook⟩ := maybeResize_spec hκ h
  rw [← hlook key] at hk
  rcases find_cases hκ hwf key with ⟨p, k, v, -, -, hslot, heq⟩ | ⟨n, -, hfind, hlt, hslot, -, hno⟩
  · have hne := (look_eq_none hκ hwf key).1 hk p k v hslot
    rw [heq] at hne
    cases hne
  · refine ⟨u, _, hslot, hno, fun value => ?_⟩
    rw [insert, insertDepth, hu 0, Option.bind_some, emplace, hfind]
    simp [hlt, hslot]

/-- a write to the value of a key that has just been inserted -/
theorem modify_insert (hκ : κ.Lawful) (h : WF κ t) {key : K} (hk : look κ t key = none) (value : V) (f : V → V) :
    (insert κ t key value).map (fun r => r.1.modify κ key f) = (insert κ t key (f value)).map Prod.fst := by
  obtain ⟨u, p, hslot, hno, hins⟩ := insert_store hκ h hk
  have hwf : WF κ (store u p key value) := by
    obtain ⟨t', q, hins', hwf, -⟩ := insert_spec hκ h key value
    rw [hins] at hins'
    cases hins'
    exact hwf
  rw [hins, hins, Option.map_some, Option.map_some]
  congr 1
  obtain ⟨hsize, hcap, halloc⟩ := modify_fields κ (store u p key value) key f
  change modify κ (store u p key value) key f = store u p key (f value)
  refine ext_fields (hsize.trans (by rfl)) (hcap.trans (by rfl)) ?_ (halloc.trans (by rfl))
  funext i
  rw [modify_slots hκ hwf]
  by_cases hi : i = p
  · subst hi
    rw [store_self, store_self]
    simp [hκ.refl key]
  · rw [store_ne hi, store_ne hi]
    cases hs : u.slots i with
    | none => rfl
    | some e => simp [hno i e.1 e.2 hs]

theorem mem_entries (h : WF κ t) {k : K} {v : V} : (k, v) ∈ t.entries ↔ ∃ i, t.slots i = some (k, v) := by
  rw [entries, List.mem_filterMap]
  constructor
  · intro hi
    obtain ⟨i, -, hi⟩ := hi
    exact ⟨i, hi⟩
  · intro hi
    obtain ⟨i, hi⟩ := hi
    exact ⟨i, List.mem_range.2 (h.lt_cap hi), hi⟩

theorem length_entries (t : HashTable K V) (n : ℕ) : ((List.range n).filterMap t.slots).length = t.occupied n := by
  induction n with
  | zero => rfl
  | succ n ih =>
    rw [List.range_succ, List.filterMap_append, List.length_append, ih, occupied_succ]
    cases h : t.slots n <;> simp [h]

end HashTable

/-- a well-formed table -/
structure Table {K : Type} [DecidableEq K] (hash : K → ℕ) (V : Type) where
  raw : HashTable K V
  wf : HashTable.WF (hashKeying hash) raw

namespace Table

variable {K V : Type} [DecidableEq K] {hash : K → ℕ}

def ofCapacity (hash : K → ℕ) (capacity : ℕ) : Table hash V :=
  ⟨HashTable.ofCapacity capacity, HashTable.fresh_wf (HashTable.findPrime_ge _).2⟩

/-- `lookup(key)`, read through its iterator -/
def get (t : Table hash V) (key : K) : Option V := HashTable.look (hashKeying hash) t.raw key

def insert (t : Table hash V) (key : K) (value : V) : Table hash V :=
  match h : HashTable.insert (hashKeying hash) t.raw key value with
  | some r => ⟨r.1, by
      obtain ⟨t', p, hins, hwf, -⟩ := HashTable.insert_spec (hashKeying_lawful hash) t.wf key value
      rw [h] at hins
      cases hins
      exact hwf⟩
  | none => t

def modify (t : Table hash V) (key : K) (f : V → V) : Table hash V :=
  ⟨t.raw.modify (hashKeying hash) key f, HashTable.modify_wf (hashKeying_lawful hash) t.wf key f⟩

def entries (t : Table hash V) : List (K × V) := t.raw.entries

def size (t : Table hash V) : ℕ := t.raw.getSize

variable (t : Table hash V)

@[simp] theorem get_ofCapacity (capacity : ℕ) (key : K) : (ofCapacity hash capacity : Table hash V).get key = none :=
  HashTable.look_fresh (hashKeying_lawful hash) (HashTable.findPrime_ge _).2 key

theorem get_eq_some {key : K} {v : V} : t.get key = some v ↔ ∃ i, t.raw.slots i = some (key, v) := by
  rw [get, HashTable.look_eq_some (hashKeying_lawful hash) t.wf]
  constructor
  · intro hs
    obtain ⟨i, k, hi, hk⟩ := hs
    rw [hashKeying, decide_eq_true_eq] at hk
    exact ⟨i, by rw [← hk]; exact hi⟩
  · intro hs
    obtain ⟨i, hi⟩ := hs
    exact ⟨i, key, hi, by simp [hashKeying]⟩

theorem ext_raw {t t' : Table hash V} (h : t.raw = t'.raw) : t = t' := by
  cases t
  cases t'
  cases h
  rfl

theorem insert_some (key : K) (value : V) :
    ∃ r, HashTable.insert (hashKeying hash) t.raw key value = some r ∧ (t.insert key value).raw = r.1 := by
  obtain ⟨t', p, hins, -⟩ := HashTable.insert_spec (hashKeying_lawful hash) t.wf key value
  refine ⟨_, hins, ?_⟩
  unfold insert
  split
  · next r h =>
    rw [h] at hins
    cases hins
    rfl
  · next h =>
    rw [h] at hins
    cases hins

theorem insert_raw (key : K) (value : V) :
    (∀ k, (t.insert key value).get k = if t.get key = none ∧ key = k then some value else t.get k) ∧
      (t.insert key value).size = t.size + if t.get key = none then 1 else 0 := by
  obtain ⟨t', p, hins, -, hlook, hsize, -⟩ := HashTable.insert_spec (hashKeying_lawful hash) t.wf key value
  unfold insert
  split
  · next r h =>
    rw [h] at hins
    cases hins
    refine ⟨fun k => ?_, hsize⟩
    have hk := hlook k
    simp only [show (hashKeying hash).eq key k = decide (key = k) from rfl, decide_eq_true_eq] at hk
    exact hk
  · next h =>
    rw [h] at hins
    cases hins

theorem get_insert (key : K) (value : V) (k : K) :
    (t.insert key value).get k = if t.get key = none ∧ key = k then some value else t.get k := (t.insert_raw key value).1 k

theorem get_insert_new {key : K} (h : t.get key = none) (value : V) (k : K) :
    (t.insert key value).get k = if key = k then some value else t.get k := by
  rw [get_insert]
  simp [h]

theorem get_modify (key : K) (f : V → V) (k : K) :
    (t.modify key f).get k = if k = key then (t.get k).map f else t.get k := by
  have hslots := HashTable.modify_slots (hashKeying_lawful hash) t.wf key f
  ext v
  rw [get_eq_some]
  simp only [modify, hslots]
  split
  · next hk =>
    subst hk
    simp only [Option.map_eq_some_iff, get_eq_some]
    constructor
    · intro hi
      obtain ⟨i, e, he, heq⟩ := hi
      cases heq
      exact ⟨e.2, ⟨i, he⟩, by simp [hashKeying]⟩
    · intro hi
      obtain ⟨w, ⟨i, hi⟩, rfl⟩ := hi
      exact ⟨i, (k, w), hi, by simp [hashKeying]⟩
  · next hk =>
    simp only [Option.map_eq_some_iff, get_eq_some]
    constructor
    · intro hi
      obtain ⟨i, e, he, heq⟩ := hi
      cases heq
      exact ⟨i, by simpa [hashKeying, hk] using he⟩
    · intro hi
      obtain ⟨i, hi⟩ := hi
      exact ⟨i, (k, v), hi, by simp [hashKeying, hk]⟩

theorem modify_modify (key : K) (f g : V → V) : (t.modify key f).modify key g = t.modify key (g ∘ f) :=
  ext_raw (HashTable.modify_modify (hashKeying_lawful hash) t.wf key f g)

theorem modify_congr {key : K} {f g : V → V} (hfg : ∀ v, t.get key = some v → f v = g v) :
    t.modify key f = t.modify key g := by
  apply ext_raw
  refine HashTable.modify_congr (hashKeying_lawful hash) t.wf fun i e hs hkey => hfg e.2 ?_
  rw [hashKeying, decide_eq_true_eq] at hkey
  exact t.get_eq_some.2 ⟨i, hkey ▸ hs⟩

theorem modify_id (key : K) : t.modify key id = t := ext_raw (HashTable.modify_id (hashKeying_lawful hash) t.wf key)

theorem modify_insert {key : K} (h : t.get key = none) (value : V) (f : V → V) :
    (t.insert key value).modify key f = t.insert key (f value) := by
  have hmodify := HashTable.modify_insert (hashKeying_lawful hash) t.wf h value f
  apply ext_raw
  rw [modify]
  obtain ⟨r, hr, hraw⟩ := t.insert_some key value
  obtain ⟨r', hr', hraw'⟩ := t.insert_some key (f value)
  rw [hr, hr', Option.map_some, Option.map_some] at hmodify
  dsimp only
  rw [hraw, hraw']
  exact Option.some.inj hmodify

theorem mem_entries {k : K} {v : V} : (k, v) ∈ t.entries ↔ t.get k = some v := by
  rw [entries, HashTable.mem_entries t.wf, get_eq_some]

theorem keys_nodup : (t.entries.map Prod.fst).Nodup := by
  refine List.Nodup.map_on ?_ ?_
  · intro a ha b hb hab
    have ha' := (t.mem_entries (k := a.1) (v := a.2)).1 ha
    rw [hab, (t.mem_entries (k := b.1) (v := b.2)).1 hb] at ha'
    exact Prod.ext hab (Option.some.inj ha').symm
  · refine List.Nodup.filterMap ?_ List.nodup_range
    intro i j e hi hj
    exact t.wf.unique i j e.1 e.2 e.1 e.2 hi hj (by simp [hashKeying])

theorem size_eq : t.size = t.entries.length := by
  rw [size, HashTable.getSize, t.wf.size_eq, entries, HashTable.entries, HashTable.length_entries]

end Table

/-! ## Sets -/

/-- `qs::hash_set` -/
abbrev WordSet {K : Type} [DecidableEq K] (hash : K → ℕ) := Table hash Unit

namespace WordSet

variable {K : Type} [DecidableEq K] {hash : K → ℕ} (s : WordSet hash)

/-- `insert(key)` -/
def insert (w : K) : WordSet hash := Table.insert s w ()

/-- what the loop from `begin()` to `end()` shows -/
def toList : List K := s.entries.map Prod.fst

/-- a new set of this capacity with these words inserted in turn -/
def ofWords (hash : K → ℕ) (capacity : ℕ) (ws : List K) : WordSet hash :=
  ws.foldl insert (Table.ofCapacity hash capacity)

theorem mem_toList {w : K} : w ∈ s.toList ↔ s.get w = some () := by
  rw [toList, List.mem_map]
  constructor
  · intro hw
    obtain ⟨⟨u, ⟨⟩⟩, hu, rfl⟩ := hw
    exact (Table.mem_entries s).1 hu
  · intro hw
    exact ⟨(w, ()), (Table.mem_entries s).2 hw, rfl⟩

theorem nodup : s.toList.Nodup := Table.keys_nodup s

theorem size_eq : s.size = s.toList.length := by rw [Table.size_eq, toList, List.length_map]

theorem mem_insert {w u : K} : u ∈ (s.insert w).toList ↔ u = w ∨ u ∈ s.toList := by
  rw [mem_toList, mem_toList, insert, Table.get_insert]
  by_cases hwu : w = u
  · subst hwu
    cases Table.get s w <;> simp
  · simp [hwu, eq_comm]

theorem toList_empty (capacity : ℕ) : toList (Table.ofCapacity hash capacity) = [] := by
  refine List.eq_nil_iff_forall_not_mem.2 fun w hw => ?_
  rw [mem_toList] at hw
  simp at hw

theorem mem_foldl_insert {ws : List K} {u : K} : u ∈ (ws.foldl insert s).toList ↔ u ∈ s.toList ∨ u ∈ ws := by
  induction ws generalizing s with
  | nil => simp
  | cons w ws ih =>
    rw [List.foldl_cons, ih, mem_insert, List.mem_cons]
    tauto

theorem mem_ofWords {capacity : ℕ} {ws : List K} {u : K} : u ∈ (ofWords hash capacity ws).toList ↔ u ∈ ws := by
  rw [ofWords, mem_foldl_insert, toList_empty]
  simp

end WordSet

end K23Search
