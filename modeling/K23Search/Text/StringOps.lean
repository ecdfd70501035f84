/-
Operations of `qs::string` that make and change strings (string.cpp): construction, copies and moves, `cat`, `+` and
`sanitize`.

Buffers are written through `Lib.memcpy`, `Lib.memmove` and `Lib.poke`, which check every access; what an operation
reads or writes outside a buffer, or through a null pointer, is `none`. A call of `memcpy` for no bytes reads nothing.
Sizes that no memory can hold, and allocations that fail, are left out; the capacity that `with_size` is given is no such
size, and is counted as the `std::size_t` it is. The memory that `new` returns is arbitrary: each operation that
allocates is given it.

- `Is`: a string with a buffer, by its characters and what lies behind their NUL.

Results:
- `copyConstruct_is`, `cat_is`, `plus_is`, `sanitize_is`: each operation, on the characters;
- `cat_agrees`: in-place and pure concatenation;
- `sanitize_filter`: `sanitize` is a filter.
-/
import K23Search.Lib.Buffer
import K23Search.Text.Strings

namespace K23Search.Text

open K23Search.Lib

/-! ## Model -/

/-- `strchr`: where `c` is in a C string, the NUL included -/
def strchr : List UInt8 → UInt8 → Option (Option ℕ)
  | [], _ => none
  | b :: str, c =>
    if b = c then some (some 0) else if b = 0 then some none else (strchr str c).map (Option.map (· + 1))

/-- `new char[n]`, in memory that holds `mem` -/
def alloc (mem : ℕ → UInt8) (n : ℕ) : List UInt8 := (List.range n).map mem

/-- the digits that `snprintf` writes for `%d` -/
def decimal (num : ℤ) : List UInt8 :=
  (if num < 0 then [45] else []) ++ (Nat.toDigits 10 num.natAbs).map fun c => c.toNat.toUInt8

namespace QsString

/-- a string with this buffer and length. Every operation leaves a NUL at the length; one that did not would be
`none`. -/
def ofBuffer (buf : List UInt8) (len : ℕ) : Option QsString :=
  if h : len < buf.length ∧ buf[len]? = some 0 then some ⟨some buf, buf.length, len, rfl, h.1, h.2⟩ else none

/-- an empty string in `new char[n]` -/
def withBuffer (mem : ℕ → UInt8) (n : ℕ) : Option QsString := (poke (alloc mem n) 0 0).bind fun str => ofBuffer str 0

/-- `with_size`; `cap + 1` is a `std::size_t` -/
def withSize (mem : ℕ → UInt8) (cap : ℕ) : Option QsString := withBuffer mem ((cap + 1) % 2 ^ 64)

/-- `string(int num)` -/
def ofInt (mem : ℕ → UInt8) (num : ℤ) : Option QsString :=
  let len := (decimal num).length
  (memcpy (alloc mem (len + 1)) 0 (decimal num ++ [0]) (len + 1)).bind fun str => ofBuffer str len

/-- `string(const string &)` -/
def copyConstruct (mem : ℕ → UInt8) (other : QsString) : Option QsString :=
  (memcpy (alloc mem (other.len + 1)) 0 other.data (other.len + 1)).bind fun str => ofBuffer str other.len

/-- `operator=(const string &)`; `same`: `this == &other` -/
def copyAssign (mem : ℕ → UInt8) (same : Bool) (s other : QsString) : Option QsString :=
  if same then some s
  else (memcpy (alloc mem (other.len + 1)) 0 other.data (other.len + 1)).bind fun str => ofBuffer str other.len

/-- `string(string &&)`: the new string, and what is left of `other` -/
def moveConstruct (other : QsString) : QsString × QsString := (other, null)

/-- `operator=(string &&)` -/
def moveAssign (same : Bool) (s other : QsString) : QsString × QsString := if same then (s, s) else (other, null)

/-- `other` may be the string itself: what is read of it is not written before -/
def cat (mem : ℕ → UInt8) (s other : QsString) : Option QsString :=
  let newLength := s.len + other.len
  if newLength < s.cap then
    (memcpy s.data s.len other.data other.len).bind fun str => (poke str newLength 0).bind fun str =>
      ofBuffer str newLength
  else
    (memcpy (alloc mem (s.len + other.len + 1)) 0 s.data s.len).bind fun newStr =>
      (memcpy newStr s.len other.data (other.len + 1)).bind fun newStr => ofBuffer newStr newLength

/-- `operator+`; the lengths are those of two buffers, and their sum with the NUL does not wrap in `with_size` -/
def plus (mem : ℕ → UInt8) (s other : QsString) : Option QsString :=
  (withBuffer mem (s.len + other.len + 1)).bind fun u =>
    (memcpy u.data 0 s.data s.len).bind fun str => (memcpy str s.len other.data other.len).bind fun str =>
      (poke str (s.len + other.len) 0).bind fun str => ofBuffer str (s.len + other.len)

/-- the `while` loop of `sanitize`, for at most `fuel` characters. `p` is the terminator only for a NUL in the remove
set; the next round then moves outside the buffer. -/
def removeLoop (c : UInt8) : ℕ → List UInt8 → ℕ → Option (List UInt8 × ℕ)
  | 0, str, len => if strchr str c = some none then some (str, len) else none
  | fuel + 1, str, len =>
    (strchr str c).bind fun
      | none => some (str, len)
      | some p =>
        if p < len then (memmove str p (p + 1) (len - p)).bind fun str => removeLoop c fuel str (len - 1) else none

/-- the `for` loop of `sanitize` from `i` on; `n` rounds are left -/
def sanitizeLoop (removeSet : QsString) : ℕ → ℕ → List UInt8 → ℕ → Option (List UInt8 × ℕ)
  | 0, _, str, len => some (str, len)
  | n + 1, i, str, len =>
    (removeSet.data[i]?).bind fun c => (removeLoop c len str len).bind fun r =>
      sanitizeLoop removeSet n (i + 1) r.1 r.2

/-- with an empty remove set nothing is read, so that a string without a buffer will do -/
def sanitize (s removeSet : QsString) : Option QsString :=
  if removeSet.len = 0 then some s
  else (sanitizeLoop removeSet removeSet.len 0 s.data s.len).bind fun r => ofBuffer r.1 r.2

/-- `pure_sanitize`; the result is a copy of the string that was sanitized -/
def pureSanitize (mem mem' : ℕ → UInt8) (s removeSet : QsString) : Option QsString :=
  (copyConstruct mem s).bind fun u => (u.sanitize removeSet).bind (copyConstruct mem')

/-! ## Strings with a buffer -/

/-- the characters `cs`, their NUL, and `junk` behind it -/
structure Is (s : QsString) (cs junk : List UInt8) : Prop where
  str_eq : s.str = some (cs ++ 0 :: junk)
  len_eq : s.len = cs.length

variable {s t : QsString} {cs ds junk junk' : List UInt8}

theorem Is.data_eq (h : Is s cs junk) : s.data = cs ++ 0 :: junk := by
  rw [data, h.str_eq]
  rfl

theorem Is.contents_eq (h : Is s cs junk) : s.contents = cs := by
  rw [contents, h.data_eq, h.len_eq, List.take_left]

theorem Is.cap_eq (h : Is s cs junk) : s.cap = cs.length + (junk.length + 1) := by
  have hvalid := s.valid
  rw [h.str_eq] at hvalid
  rw [← hvalid.1, List.length_append, List.length_cons]

/-- the length is within the buffer, and there is a NUL at it -/
theorem Is.terminated (h : Is s cs junk) : s.len < s.cap ∧ s.data[s.len]? = some 0 := by
  refine ⟨by rw [h.cap_eq, h.len_eq]; omega, ?_⟩
  rw [h.data_eq, h.len_eq, List.getElem?_append_right (Nat.le_refl _), Nat.sub_self, List.getElem?_cons_zero]

/-- strings with the same characters are `==` -/
theorem Is.equal (hs : Is s cs junk) (ht : Is t cs junk') : eq s t = some true := by
  rw [eq_spec, hs.contents_eq, ht.contents_eq, decide_eq_true rfl]

theorem exists_is (h : s.str.isSome = true) : ∃ junk, Is s s.contents junk := by
  obtain ⟨buf, hbuf⟩ := Option.isSome_iff_exists.1 h
  have hdata : s.data = buf := by
    rw [data, hbuf]
    rfl
  have hvalid := s.valid
  rw [hbuf] at hvalid
  obtain ⟨hcap, hlt, hnul⟩ := hvalid
  obtain ⟨hlen, hget⟩ := List.getElem?_eq_some_iff.1 hnul
  refine ⟨buf.drop (s.len + 1), ?_, ?_⟩
  · rw [hbuf, contents, hdata, ← hget, ← List.drop_eq_getElem_cons hlen, List.take_append_drop]
  · rw [contents, hdata, List.length_take]
    omega

theorem ofBuffer_is (cs junk : List UInt8) {len : ℕ} (hlen : len = cs.length) :
    ∃ u, ofBuffer (cs ++ 0 :: junk) len = some u ∧ Is u cs junk := by
  have h : len < (cs ++ 0 :: junk).length ∧ (cs ++ 0 :: junk)[len]? = some 0 := by
    rw [hlen, List.getElem?_append_right (Nat.le_refl _), Nat.sub_self, List.getElem?_cons_zero, List.length_append,
      List.length_cons]
    exact ⟨by omega, rfl⟩
  rw [ofBuffer, dif_pos h]
  exact ⟨_, rfl, rfl, hlen⟩

theorem length_alloc (mem : ℕ → UInt8) (n : ℕ) : (alloc mem n).length = n := by
  rw [alloc, List.length_map, List.length_range]

/-! ## Construction, copies, concatenation -/

theorem withBuffer_is (mem : ℕ → UInt8) (n : ℕ) :
    ∃ u junk, withBuffer mem (n + 1) = some u ∧ Is u [] junk ∧ junk.length = n := by
  obtain ⟨y, zs, hmem⟩ := List.exists_cons_of_length_eq_add_one (length_alloc mem (n + 1))
  have hlen := length_alloc mem (n + 1)
  rw [hmem, List.length_cons, Nat.add_right_cancel_iff] at hlen
  obtain ⟨u, hu, his⟩ : ∃ u, ofBuffer ([] ++ 0 :: zs) 0 = some u ∧ Is u [] zs := ofBuffer_is [] zs rfl
  refine ⟨u, zs, ?_, his, hlen⟩
  have hpoke : poke (y :: zs) 0 0 = some (0 :: zs) := poke_middle [] zs y 0 rfl
  rw [withBuffer, hmem, hpoke]
  exact hu

/-- `with_size` has a place for the NUL unless `cap + 1` is 0 -/
theorem withSize_isSome (mem : ℕ → UInt8) (cap : ℕ) : (withSize mem cap).isSome = true ↔ (cap + 1) % 2 ^ 64 ≠ 0 := by
  rw [withSize]
  cases (cap + 1) % 2 ^ 64 with
  | zero => simp [withBuffer, alloc, poke, overwrite]
  | succ n =>
    obtain ⟨u, junk, hu, -⟩ := withBuffer_is mem n
    simp [hu]

/-- the `memcpy` of a copy takes the NUL along -/
theorem copy_is (mem : ℕ → UInt8) (h : Is t ds junk) :
    ∃ u, ((memcpy (alloc mem (t.len + 1)) 0 t.data (t.len + 1)).bind fun str => ofBuffer str t.len) = some u ∧
      Is u ds [] := by
  obtain ⟨u, hu, his⟩ := ofBuffer_is ds [] h.len_eq
  refine ⟨u, ?_, his⟩
  have hlen : t.len + 1 = (ds ++ [0]).length := by rw [h.len_eq, List.length_append]; rfl
  rw [h.data_eq, List.append_cons ds 0 junk, memcpy_whole _ _ junk hlen (by rw [length_alloc, hlen])]
  exact hu

theorem copyConstruct_is (mem : ℕ → UInt8) (h : Is t ds junk) : ∃ u, copyConstruct mem t = some u ∧ Is u ds [] :=
  copy_is mem h

/-- a string without a buffer is copied through the null pointer -/
theorem copyConstruct_null (mem : ℕ → UInt8) (h : s.str = none) : copyConstruct mem s = none := by
  rw [copyConstruct, memcpy, data, h, if_neg (by simp)]
  rfl

/-- the buffer has room for the characters of `t` and a NUL -/
theorem cat_room (mem : ℕ → UInt8) (hs : Is s cs junk) (ht : Is t ds junk') (hroom : s.len + t.len < s.cap) :
    ∃ u rest, cat mem s t = some u ∧ Is u (cs ++ ds) rest := by
  have hsum : s.len + t.len = (cs ++ ds).length := by rw [hs.len_eq, ht.len_eq, List.length_append]
  have hfree : ds.length ≤ junk.length := by
    rw [hs.cap_eq, hsum, List.length_append] at hroom
    omega
  obtain ⟨ys, zs, hsplit, hys, hzs⟩ := exists_split (l := 0 :: junk) (m := ds.length) (n := junk.length + 1 - ds.length)
    (by rw [List.length_cons]; omega)
  obtain ⟨z, zs, rfl⟩ := List.exists_cons_of_length_pos (l := zs) (by omega)
  obtain ⟨u, hu, his⟩ := ofBuffer_is (cs ++ ds) zs hsum
  refine ⟨u, zs, ?_, his⟩
  rw [cat, if_pos hroom, hs.data_eq, hsplit, ht.data_eq, ← List.append_assoc,
    memcpy_middle cs ys (z :: zs) ds _ hs.len_eq ht.len_eq hys.symm, Option.bind_some,
    poke_middle (cs ++ ds) zs z 0 hsum]
  exact hu

/-- there is no room: the characters of both and the NUL of `t` go to a new buffer -/
theorem cat_full (mem : ℕ → UInt8) (hs : Is s cs junk) (ht : Is t ds junk') (hfull : ¬s.len + t.len < s.cap) :
    ∃ u, cat mem s t = some u ∧ Is u (cs ++ ds) [] := by
  have hsum : s.len + t.len = (cs ++ ds).length := by rw [hs.len_eq, ht.len_eq, List.length_append]
  have hnul : t.len + 1 = (ds ++ [0]).length := by rw [ht.len_eq, List.length_append]; rfl
  have hroom := Nat.le_of_eq (length_alloc mem (s.len + t.len + 1)).symm
  obtain ⟨zs, hcopy, hzs⟩ := memcpy_memcpy (alloc mem (s.len + t.len + 1)) cs (ds ++ [0]) (0 :: junk) junk' hs.len_eq
    hnul hroom
  rw [length_alloc] at hzs
  obtain rfl := List.eq_nil_of_length_eq_zero (l := zs) (by omega)
  obtain ⟨u, hu, his⟩ := ofBuffer_is (cs ++ ds) [] hsum
  refine ⟨u, ?_, his⟩
  rw [← hs.data_eq, ← List.append_cons ds 0 junk', ← ht.data_eq, List.append_nil, ← List.append_assoc] at hcopy
  rw [cat, if_neg hfull, ← Option.bind_assoc, hcopy]
  exact hu

/-- concatenation, on either path -/
theorem cat_is (mem : ℕ → UInt8) (hs : Is s cs junk) (ht : Is t ds junk') :
    ∃ u rest, cat mem s t = some u ∧ Is u (cs ++ ds) rest := by
  by_cases hroom : s.len + t.len < s.cap
  · exact cat_room mem hs ht hroom
  · obtain ⟨u, hu, his⟩ := cat_full mem hs ht hroom
    exact ⟨u, [], hu, his⟩

/-- the characters of both go to the buffer of the new string, and the NUL behind them -/
theorem plus_is (mem : ℕ → UInt8) (hs : Is s cs junk) (ht : Is t ds junk') :
    ∃ u, plus mem s t = some u ∧ Is u (cs ++ ds) [] := by
  have hsum : s.len + t.len = (cs ++ ds).length := by rw [hs.len_eq, ht.len_eq, List.length_append]
  obtain ⟨v, free, hv, hvis, hfree⟩ := withBuffer_is mem (s.len + t.len)
  have hdata : v.data.length = s.len + t.len + 1 := by rw [hvis.data_eq, List.nil_append, List.length_cons, hfree]
  obtain ⟨zs, hcopy, hzs⟩ := memcpy_memcpy v.data cs ds (0 :: junk) (0 :: junk') hs.len_eq ht.len_eq (by omega)
  obtain ⟨z, rfl⟩ := List.length_eq_one_iff.1 (show zs.length = 1 by omega)
  obtain ⟨u, hu, his⟩ := ofBuffer_is (cs ++ ds) [] hsum
  refine ⟨u, ?_, his⟩
  rw [← hs.data_eq, ← ht.data_eq] at hcopy
  rw [plus, hv, Option.bind_some, ← Option.bind_assoc, hcopy, Option.bind_some, poke_middle (cs ++ ds) [] z 0 hsum]
  exact hu

/-- the two concatenations, over any pieces -/
theorem foldlM_is {op : (ℕ → UInt8) → QsString → QsString → Option QsString}
    (hop : ∀ mem s t cs ds junk junk', Is s cs junk → Is t ds junk' →
      ∃ u rest, op mem s t = some u ∧ Is u (cs ++ ds) rest)
    {pieces : List ((ℕ → UInt8) × QsString)} (hp : ∀ p ∈ pieces, p.2.str.isSome = true) (hs : Is s cs junk) :
    ∃ u rest, pieces.foldlM (fun s p => op p.1 s p.2) s = some u ∧
      Is u (cs ++ (pieces.map fun p => p.2.contents).flatten) rest := by
  induction pieces generalizing s cs junk with
  | nil => exact ⟨s, junk, rfl, by simpa using hs⟩
  | cons p pieces ih =>
    obtain ⟨junk', ht⟩ := exists_is (hp p List.mem_cons_self)
    obtain ⟨u, rest, hu, his⟩ := hop p.1 _ _ _ _ _ _ hs ht
    obtain ⟨v, rest', hv, hvis⟩ := ih (fun q hq => hp q (List.mem_cons_of_mem _ hq)) his
    refine ⟨v, rest', ?_, ?_⟩
    · rw [List.foldlM_cons, hu]
      exact hv
    · rwa [List.map_cons, List.flatten_cons, ← List.append_assoc]

/-- the characters `cs` with a NUL behind them, within the buffer -/
structure Holds (s : QsString) (cs : List UInt8) : Prop where
  contents : s.contents = cs
  len : s.len = cs.length
  lt : s.len < s.cap
  nul : s.data[s.len]? = some 0

theorem Is.holds (h : Is s cs junk) : Holds s cs := ⟨h.contents_eq, h.len_eq, h.terminated.1, h.terminated.2⟩

/-- **Concatenation.** `cat` and `+` write the same characters, on either path of `cat` and whatever new memory holds,
and so do any number of them. -/
theorem cat_agrees {s t : QsString} (hs : s.str.isSome = true) (ht : t.str.isSome = true) (mem mem' : ℕ → UInt8) :
    (∃ u v, cat mem s t = some u ∧ plus mem' s t = some v ∧ Holds u (s.contents ++ t.contents) ∧
      eq u v = some true) ∧
    ∀ ps qs : List ((ℕ → UInt8) × QsString), ps.map Prod.snd = qs.map Prod.snd →
      (∀ p ∈ ps, p.2.str.isSome = true) →
      ∃ u v, ps.foldlM (fun s p => cat p.1 s p.2) s = some u ∧ qs.foldlM (fun s p => plus p.1 s p.2) s = some v ∧
        Holds u (s.contents ++ (ps.map fun p => p.2.contents).flatten) ∧ eq u v = some true := by
  obtain ⟨junk, hs⟩ := exists_is hs
  constructor
  · obtain ⟨junk', ht⟩ := exists_is ht
    obtain ⟨u, rest, hu, huis⟩ := cat_is mem hs ht
    obtain ⟨v, hv, hvis⟩ := plus_is mem' hs ht
    exact ⟨u, v, hu, hv, huis.holds, huis.equal hvis⟩
  · intro ps qs hpq hp
    have hq : ∀ q ∈ qs, q.2.str.isSome = true := by
      intro q hq
      have hmem : q.2 ∈ ps.map Prod.snd := hpq ▸ List.mem_map_of_mem hq
      obtain ⟨p, hmem, hpq⟩ := List.mem_map.1 hmem
      exact hpq ▸ hp p hmem
    have hcontents : (ps.map fun p => p.2.contents) = qs.map fun p => p.2.contents := by
      have h := congrArg (List.map contents) hpq
      rwa [List.map_map, List.map_map] at h
    obtain ⟨u, rest, hu, huis⟩ := foldlM_is (fun mem _ _ _ _ _ _ hs ht => cat_is mem hs ht) hp hs
    obtain ⟨v, rest', hv, hvis⟩ :=
      foldlM_is (fun mem _ _ _ _ _ _ hs ht => (plus_is mem hs ht).imp fun _ hu => ⟨[], hu⟩) hq hs
    rw [← hcontents] at hvis
    exact ⟨u, v, hu, hv, huis.holds, huis.equal hvis⟩

/-- `"a"` with room for one more character, and `"b"` twice: the first `cat` is in place -/
theorem cat_agrees_two :
    let s : QsString := ⟨some [97, 0, 9], 3, 1, by decide⟩
    let t : QsString := ⟨some [98, 0], 2, 1, by decide⟩
    ∃ u v, [(fun _ => 1, t), (fun _ => 2, t)].foldlM (fun s p => cat p.1 s p.2) s = some u ∧
      [(fun _ => 3, t), (fun _ => 4, t)].foldlM (fun s p => plus p.1 s p.2) s = some v ∧
      Holds u [97, 98, 98] ∧ eq u v = some true := by
  intro s t
  have h := cat_agrees (s := s) (t := t) rfl rfl (fun _ => 0) (fun _ => 0)
  exact h.2 [(fun _ => 1, t), (fun _ => 2, t)] [(fun _ => 3, t), (fun _ => 4, t)] rfl (by simp [t])

/-! ## `sanitize` -/

theorem strchr_append {c : UInt8} {cs : List UInt8} (rest : List UInt8) (h0 : 0 ∉ cs) (hc : c ∉ cs) :
    strchr (cs ++ rest) c = (strchr rest c).map (Option.map (cs.length + ·)) := by
  induction cs with
  | nil => simp
  | cons b cs ih =>
    rw [List.mem_cons, not_or] at h0 hc
    rw [List.cons_append, strchr, if_neg (Ne.symm hc.1), if_neg (Ne.symm h0.1), ih h0.2 hc.2, Option.map_map,
      Option.map_comp_map]
    congr 2
    funext p
    simp only [Function.comp, List.length_cons]
    omega

theorem strchr_absent {c : UInt8} (h0 : 0 ∉ cs) (hc : c ∉ cs) (hc0 : c ≠ 0) :
    strchr (cs ++ 0 :: junk) c = some none := by
  rw [strchr_append _ h0 hc, strchr, if_neg (Ne.symm hc0), if_pos rfl]
  rfl

theorem strchr_first {c : UInt8} (rest : List UInt8) (h0 : 0 ∉ cs) (hc : c ∉ cs) :
    strchr (cs ++ c :: rest) c = some (some cs.length) := by
  rw [strchr_append _ h0 hc, strchr, if_pos rfl]
  rfl

/-- what the buffer of a string holds behind the characters that are left: a NUL for each character that went -/
def behind (cs left junk : List UInt8) : List UInt8 := List.replicate (cs.length - left.length) 0 ++ junk

theorem behind_cons {left : List UInt8} (as bs : List UInt8) (c : UInt8) (junk : List UInt8)
    (h : left.length ≤ (as ++ bs).length) :
    behind (as ++ c :: bs) left junk = behind (as ++ bs) left (0 :: junk) := by
  have hlen : (as ++ c :: bs).length - left.length = (as ++ bs).length - left.length + 1 := by
    rw [List.length_append, List.length_cons, List.length_append] at *
    omega
  calc
    behind (as ++ c :: bs) left junk = List.replicate ((as ++ bs).length - left.length + 1) 0 ++ junk := by
      rw [behind, hlen]
    _ = List.replicate ((as ++ bs).length - left.length) 0 ++ [0] ++ junk := by rw [List.replicate_succ']
    _ = behind (as ++ bs) left (0 :: junk) := List.append_assoc ..

theorem behind_behind {left left' : List UInt8} (h : left.length ≤ cs.length) (h' : left'.length ≤ left.length) :
    behind left left' (behind cs left junk) = behind cs left' junk := by
  have hsum : left.length - left'.length + (cs.length - left.length) = cs.length - left'.length := by omega
  calc
    behind left left' (behind cs left junk) =
        List.replicate (left.length - left'.length) 0 ++ List.replicate (cs.length - left.length) 0 ++ junk :=
      (List.append_assoc ..).symm
    _ = behind cs left' junk := by rw [List.replicate_append_replicate, hsum, behind]

/-- every occurrence of one character goes. Each round takes the first one away and leaves one more NUL at the end. -/
theorem removeLoop_spec {c : UInt8} (hc0 : c ≠ 0) (fuel : ℕ) (h0 : 0 ∉ cs) (hfuel : cs.length ≤ fuel) :
    removeLoop c fuel (cs ++ 0 :: junk) cs.length =
      some (cs.filter (· ≠ c) ++ 0 :: behind cs (cs.filter (· ≠ c)) junk, (cs.filter (· ≠ c)).length) := by
  induction fuel generalizing cs junk with
  | zero =>
    obtain rfl := List.eq_nil_of_length_eq_zero (Nat.le_zero.1 hfuel)
    rw [removeLoop, strchr_absent h0 (List.not_mem_nil) hc0]
    rfl
  | succ fuel ih =>
    rw [removeLoop]
    by_cases hc : c ∈ cs
    · obtain ⟨as, bs, rfl, has⟩ := List.eq_append_cons_of_mem hc
      rw [List.mem_append, List.mem_cons, not_or, not_or] at h0
      have hmove : memmove (as ++ c :: bs ++ 0 :: junk) as.length (as.length + 1)
          ((as ++ c :: bs).length - as.length) = some (as ++ bs ++ 0 :: 0 :: junk) := by
        have h := memmove_down as bs junk c 0 rfl (show (as ++ c :: bs).length - as.length = bs.length + 1 by simp)
        simpa using h
      have hleft : (as ++ c :: bs).filter (· ≠ c) = (as ++ bs).filter (· ≠ c) := by simp
      have hlen : (as ++ c :: bs).length - 1 = (as ++ bs).length := by simp
      have hfirst : strchr (as ++ c :: bs ++ 0 :: junk) c = some (some as.length) := by
        rw [List.append_assoc]
        exact strchr_first _ h0.1 has
      rw [hfirst, Option.bind_some]
      simp only []
      rw [if_pos (by simp), hmove, Option.bind_some, hlen, ih, hleft,
        behind_cons as bs c junk (List.length_filter_le ..)]
      · rw [List.mem_append, not_or]
        exact ⟨h0.1, h0.2.2⟩
      · rw [List.length_append, List.length_cons] at hfuel
        rw [List.length_append]
        omega
    · rw [strchr_absent h0 hc hc0, List.filter_eq_self.2 (fun b hb => decide_eq_true (ne_of_mem_of_not_mem hb hc)),
        behind, Nat.sub_self]
      rfl

/-- the characters of the remove set go one after the other -/
theorem sanitizeLoop_spec {removeSet : QsString} {gone rs rest : List UInt8} {i n : ℕ} (junk : List UInt8)
    (hdata : removeSet.data = gone ++ rs ++ rest) (hi : i = gone.length) (hn : n = rs.length) (hr : 0 ∉ rs)
    (h0 : 0 ∉ cs) :
    sanitizeLoop removeSet n i (cs ++ 0 :: junk) cs.length =
      some (cs.filter (· ∉ rs) ++ 0 :: behind cs (cs.filter (· ∉ rs)) junk, (cs.filter (· ∉ rs)).length) := by
  induction rs generalizing gone i n cs junk with
  | nil =>
    have hall : cs.filter (· ∉ ([] : List UInt8)) = cs := by simp
    rw [hn, hall, behind, Nat.sub_self]
    rfl
  | cons c rs ih =>
    rw [List.mem_cons, not_or] at hr
    have hget : removeSet.data[i]? = some c := by
      rw [hdata, hi, List.append_assoc, List.getElem?_append_right (Nat.le_refl _), Nat.sub_self]
      rfl
    have hleft : (cs.filter (· ≠ c)).filter (· ∉ rs) = cs.filter (· ∉ c :: rs) := by
      rw [List.filter_filter]
      apply List.filter_congr
      intro b _
      rw [← Bool.decide_and, decide_eq_decide, List.mem_cons, not_or, and_comm]
    have hrest : removeSet.data = (gone ++ [c]) ++ rs ++ rest := by
      rw [hdata]
      simp
    rw [hn, List.length_cons, sanitizeLoop, hget, Option.bind_some,
      removeLoop_spec (Ne.symm hr.1) cs.length h0 (Nat.le_refl _), Option.bind_some]
    simp only []
    rw [ih _ hrest (by rw [hi, List.length_append]; rfl) rfl hr.2 (fun h => h0 (List.mem_of_mem_filter h)), hleft,
      behind_behind (List.length_filter_le ..) (by rw [← hleft]; exact List.length_filter_le ..)]

theorem Is.unique (hs : Is s cs junk) (ht : Is t cs junk) : s = t := by
  have hcap : s.cap = t.cap := hs.cap_eq.trans ht.cap_eq.symm
  have hstr : s.str = t.str := hs.str_eq.trans ht.str_eq.symm
  have hlen : s.len = t.len := hs.len_eq.trans ht.len_eq.symm
  cases s with
  | mk str cap len _ =>
    cases t with
    | mk str' cap' len' _ =>
      cases hcap
      cases hstr
      cases hlen
      rfl

/-- `sanitize`, down to what lies behind the characters that are left -/
theorem sanitize_is {r : QsString} (hs : Is s cs junk) (h0 : 0 ∉ cs) (hr : 0 ∉ r.contents) :
    ∃ u, sanitize s r = some u ∧
      Is u (cs.filter (· ∉ r.contents)) (behind cs (cs.filter (· ∉ r.contents)) junk) := by
  obtain ⟨rest, hdata, hlen⟩ := r.data_eq
  rw [sanitize]
  by_cases hempty : r.len = 0
  · have hnil : r.contents = [] := List.eq_nil_of_length_eq_zero (hlen.trans hempty)
    have hall : cs.filter (· ∉ r.contents) = cs := by simp [hnil]
    refine ⟨s, if_pos hempty, ?_⟩
    rw [hall, behind, Nat.sub_self]
    exact hs
  · have hstart : r.data = [] ++ r.contents ++ rest := hdata
    have hloop := sanitizeLoop_spec junk hstart (show 0 = ([] : List UInt8).length from rfl) hlen.symm hr h0
    obtain ⟨u, hu, his⟩ := ofBuffer_is (cs.filter (· ∉ r.contents)) (behind cs (cs.filter (· ∉ r.contents)) junk) rfl
    refine ⟨u, ?_, his⟩
    rw [if_neg hempty, hs.data_eq, hs.len_eq, hloop, Option.bind_some]
    exact hu

/-- **Sanitize.** `sanitize` keeps exactly the characters that are not in the remove set. Doing it again changes
nothing, only the set of characters to remove matters, and `pure_sanitize` gives the same characters. -/
theorem sanitize_filter {s r : QsString} (hs : s.str.isSome = true) (h0 : 0 ∉ s.contents) (hr : 0 ∉ r.contents) :
    ∃ u, sanitize s r = some u ∧ Holds u (s.contents.filter (· ∉ r.contents)) ∧ sanitize u r = some u ∧
      (∀ r' : QsString, (∀ b, b ∈ r'.contents ↔ b ∈ r.contents) → sanitize s r' = some u) ∧
      ∀ mem mem', ∃ v, pureSanitize mem mem' s r = some v ∧ Holds v (s.contents.filter (· ∉ r.contents)) ∧
        eq u v = some true := by
  obtain ⟨junk, hs⟩ := exists_is hs
  obtain ⟨u, hu, huis⟩ := sanitize_is hs h0 hr
  refine ⟨u, hu, huis.holds, ?_, ?_, ?_⟩
  · obtain ⟨v, hv, hvis⟩ := sanitize_is huis (fun h => h0 (List.mem_of_mem_filter h)) hr
    rw [List.filter_filter, behind_behind (List.length_filter_le ..) (by simp)] at hvis
    simp only [Bool.and_self] at hvis
    rw [hv, huis.unique hvis]
  · intro r' hset
    obtain ⟨v, hv, hvis⟩ := sanitize_is hs h0 (fun h => hr ((hset 0).1 h))
    have hleft : s.contents.filter (· ∉ r'.contents) = s.contents.filter (· ∉ r.contents) := by simp only [hset]
    rw [hleft] at hvis
    rw [hv, huis.unique hvis]
  · intro mem mem'
    obtain ⟨w, hw, hwis⟩ := copyConstruct_is mem hs
    obtain ⟨x, hx, hxis⟩ := sanitize_is hwis h0 hr
    obtain ⟨v, hv, hvis⟩ := copyConstruct_is mem' hxis
    refine ⟨v, ?_, hvis.holds, huis.equal hvis⟩
    rw [pureSanitize, hw, Option.bind_some, hx, Option.bind_some, hv]

/-- `"banana"` without `"an"` is `"b"` -/
theorem sanitize_filter_banana :
    let s : QsString := ⟨some [98, 97, 110, 97, 110, 97, 0], 7, 6, by decide⟩
    let r : QsString := ⟨some [97, 110, 0], 3, 2, by decide⟩
    ∃ u, sanitize s r = some u ∧ Holds u [98] ∧ sanitize u r = some u := by
  intro s r
  obtain ⟨u, hu, hholds, hagain, -⟩ := sanitize_filter (s := s) (r := r) rfl (by decide) (by decide)
  exact ⟨u, hu, hholds, hagain⟩

end QsString

end K23Search.Text
