/-
The hashes of `qs::string` and `qs::string_view` (hash.cpp, string.h, string_view.h).

`djb2` and `sdbm` read bytes up to the NUL; `hash_i` combines them, and `std::hash<qs::string>` is `djb2` of the buffer.
`std::hash<qs::string_view>` repeats the formula of `djb2` in a loop of its own, over the characters from `startp` to
`endp`; these are signed, so that a byte from 128 on is added as itself less 256. A read through a null pointer is
`none`.

Results:
- `hash_string`, `View.hash_eq`: the hashes as folds over the contents (`mixAll`);
- `mixAll_char`: how far the two folds are apart;
- `hashAgrees_iff`: when operands that are `==` have the same hash;
- `hashI_isSome`: `hash_i` of a C string is defined up to the square of an `int`.
-/
import K23Search.Text.StringView
import K23Search.Text.Strings
import Mathlib.Algebra.GroupWithZero.Nat
import Mathlib.Tactic.Ring

namespace K23Search.Text

/-! ## Model -/

/-- `hash = ((hash << 5) + hash) + c` -/
def mix (hash c : UInt64) : UInt64 := ((hash <<< 5) + hash) + c

/-- `while ((c = *str++)) hash = step(hash, c)`, over the memory from `str` on -/
def untilNul (step : UInt64 → UInt8 → UInt64) : List UInt8 → UInt64 → Option UInt64
  | [], _ => none
  | c :: str, hash => if c = 0 then some hash else untilNul step str (step hash c)

def djb2 (str : List UInt8) : Option UInt64 := untilNul (fun hash c => mix hash c.toUInt64) str 5381

def sdbm (str : List UInt8) : Option UInt64 :=
  untilNul (fun hash c => c.toUInt64 + (hash <<< 6) + (hash <<< 16) - hash) str 0

/-- `hash_i(el, i)`; `i * i` is a product of two `int`s -/
def hashI (el : List UInt8) (i : ℤ) : Option UInt64 :=
  (djb2 el).bind fun d => (sdbm el).bind fun s =>
    if i * i < 2 ^ 31 then some (d + UInt64.ofInt i * s + UInt64.ofInt (i * i)) else none

/-- a plain `char`, which is signed, as the `i32` that is added to a `u64` -/
def ofChar (c : UInt8) : UInt64 := c.toInt8.toInt32.toInt64.toUInt64

namespace StringView

/-- the memory from `startp` on -/
def bytes (mem : List UInt8) (v : StringView) : List UInt8 :=
  match v.startp with
  | some startp => mem.drop startp.toNat
  | none => []

/-- `operator==(const string_view &)` -/
def eq (mem : List UInt8) (v : StringView) (mem' : List UInt8) (other : StringView) : Option Bool :=
  equalBytes (v.bytes mem) (other.bytes mem') v.size other.size

/-- `operator==(const string &)` -/
def eqString (mem : List UInt8) (v : StringView) (other : QsString) : Option Bool :=
  equalBytes (v.bytes mem) other.data v.size other.len

/-- the loop of `std::hash<qs::string_view>`, up to the pointer `stop` -/
def hashLoop (mem : List UInt8) (stop : ℤ) : ℕ → ℤ → UInt64 → Option UInt64
  | 0, str, hash => if str = stop then some hash else none
  | fuel + 1, str, hash =>
    if str = stop then some hash
    else (read mem str).bind fun c => hashLoop mem stop fuel (str + 1) (mix hash (ofChar c))

/-- `std::hash<qs::string_view>` -/
def hash (mem : List UInt8) (v : StringView) : Option UInt64 :=
  match v.startp, v.endp with
  | some startp, some endp => hashLoop mem (endp + 1) mem.length startp 5381
  | _, _ => none

end StringView

/-- `std::hash<qs::string>` -/
def QsString.hash (s : QsString) : Option UInt64 := djb2 s.data

/-- NUL-terminated memory -/
structure CString where
  mem : List UInt8
  terminated : 0 ∈ mem
deriving DecidableEq

/-! ## Operands -/

/-- a view into a buffer, or a default-constructed one -/
structure View where
  mem : List UInt8
  view : StringView
  valid : view = .empty ∨
    ∃ start n : ℕ, view = ⟨some start, some ((start : ℤ) + n - 1)⟩ ∧ start + n ≤ mem.length

inductive Operand where
  | view (v : View)
  | string (s : QsString)

namespace Operand

def contents : Operand → List UInt8
  | view v => v.view.chars v.mem
  | string s => s.contents

/-- there are no bytes to point to -/
def isNull : Operand → Bool
  | view v => v.view.startp.isNone
  | string s => s.str.isNone

def isView : Operand → Bool
  | view _ => true
  | string _ => false

def hash : Operand → Option UInt64
  | view v => v.view.hash v.mem
  | string s => s.hash

/-- the `==` overloads; for a string and a view the view is the left operand -/
def eq : Operand → Operand → Option Bool
  | view v, view w => v.view.eq v.mem w.mem w.view
  | view v, string s => v.view.eqString v.mem s
  | string s, view v => v.view.eqString v.mem s
  | string s, string t => s.eq t

end Operand

/-- operands that are `==` have hashes, and these are equal -/
def HashAgrees (x y : Operand) : Prop := x.eq y = some true → ∃ h, x.hash = some h ∧ y.hash = some h

/-- the sum of the weights of the bytes from 128 on, a byte's weight being 33 to the number of bytes behind it -/
def highWeight : List UInt8 → ℕ
  | [] => 0
  | b :: bs => (if 128 ≤ b then 33 ^ bs.length else 0) + highWeight bs

/-! ## The hashes as folds -/

open scoped UInt64.CommRing

/-- the hash of the bytes `bs`, each added as `f` of it -/
def mixAll (f : UInt8 → UInt64) (bs : List UInt8) (hash : UInt64) : UInt64 := bs.foldl (fun h b => mix h (f b)) hash

theorem mix_eq (hash c : UInt64) : mix hash c = 33 * hash + c := by
  have hshift : hash <<< 5 = 32 * hash := by
    apply UInt64.toNat_inj.1
    simp only [UInt64.toNat_shiftLeft, UInt64.toNat_mul, Nat.shiftLeft_eq, UInt64.reduceToNat, Nat.reduceMod,
      Nat.reducePow, Nat.mul_comm]
  rw [mix, hshift]
  ring

theorem ofChar_eq (c : UInt8) : ofChar c = c.toUInt64 - if 128 ≤ c then 256 else 0 := by
  obtain ⟨⟨c⟩⟩ := c
  revert c
  decide +kernel

/-- the signed fold, from a start that is `256 * w` behind: it ends behind by the weight of the high bytes and by that
of `w` -/
theorem mixAll_behind (bs : List UInt8) (hash w : UInt64) :
    mixAll ofChar bs (hash - 256 * w) =
      mixAll UInt8.toUInt64 bs hash - 256 * (33 ^ bs.length * w + (highWeight bs : UInt64)) := by
  induction bs generalizing hash w with
  | nil => simp [mixAll, highWeight]
  | cons b bs ih =>
    have hstep : mix (hash - 256 * w) (ofChar b) =
        mix hash b.toUInt64 - 256 * (33 * w + if 128 ≤ b then 1 else 0) := by
      rw [mix_eq, mix_eq, ofChar_eq]
      split
      · ring
      · ring
    calc mixAll ofChar (b :: bs) (hash - 256 * w)
        = mixAll ofChar bs (mix (hash - 256 * w) (ofChar b)) := rfl
      _ = mixAll UInt8.toUInt64 bs (mix hash b.toUInt64) -
            256 * (33 ^ bs.length * (33 * w + if 128 ≤ b then 1 else 0) + (highWeight bs : UInt64)) := by
        rw [hstep, ih]
      _ = mixAll UInt8.toUInt64 (b :: bs) hash -
            256 * (33 ^ (b :: bs).length * w + (highWeight (b :: bs) : UInt64)) := by
        have hweight : (highWeight (b :: bs) : UInt64) =
            33 ^ bs.length * (if 128 ≤ b then 1 else 0) + (highWeight bs : UInt64) := by
          rw [highWeight]
          split
          · push_cast
            ring
          · push_cast
            ring
        rw [hweight, List.length_cons, pow_succ]
        change mixAll UInt8.toUInt64 bs (mix hash b.toUInt64) - _ = mixAll UInt8.toUInt64 bs (mix hash b.toUInt64) - _
        ring

/-- the two folds agree when the weight of the high bytes vanishes in 64 bits -/
theorem mixAll_char (bs : List UInt8) (hash : UInt64) :
    mixAll ofChar bs hash = mixAll UInt8.toUInt64 bs hash ↔ 2 ^ 56 ∣ highWeight bs := by
  have hbehind := mixAll_behind bs hash 0
  rw [mul_zero, mul_zero, sub_zero, zero_add] at hbehind
  have hnat : (256 * (highWeight bs : UInt64)).toNat = 256 * highWeight bs % 2 ^ 64 := by
    rw [UInt64.toNat_mul]
    change 256 * (highWeight bs % 2 ^ 64) % 2 ^ 64 = _
    omega
  rw [hbehind, sub_eq_self, ← UInt64.toNat_inj, hnat, UInt64.toNat_zero]
  omega

/-- a loop up to the NUL is a fold over the bytes before it -/
theorem untilNul_eq (step : UInt64 → UInt8 → UInt64) {bs : List UInt8} (h0 : 0 ∉ bs) (rest : List UInt8)
    (hash : UInt64) : untilNul step (bs ++ 0 :: rest) hash = some (bs.foldl step hash) := by
  induction bs generalizing hash with
  | nil => rfl
  | cons b bs ih =>
    have hb : b ≠ 0 := fun heq => h0 (heq ▸ List.mem_cons_self)
    rw [List.cons_append, untilNul, if_neg hb]
    exact ih (fun hm => h0 (List.mem_cons_of_mem _ hm)) _

/-- the hash of a string without NUL bytes -/
theorem hash_string (s : QsString) (h0 : 0 ∉ s.contents) :
    s.hash = if s.str.isNone then none else some (mixAll UInt8.toUInt64 s.contents 5381) := by
  obtain ⟨rest, hdata, hlen⟩ := s.data_eq
  rw [QsString.hash, djb2]
  cases hstr : s.str with
  | none =>
    rw [QsString.data, hstr]
    rfl
  | some buf =>
    have hbuf : s.data = buf := by rw [QsString.data, hstr]; rfl
    have hvalid := s.valid
    rw [hstr] at hvalid
    obtain ⟨-, -, hnul⟩ := hvalid
    rw [← hbuf, hdata, ← hlen, List.getElem?_append_right (Nat.le_refl _), Nat.sub_self, ← List.head?_eq_getElem?,
      List.head?_eq_some_iff] at hnul
    obtain ⟨rest', rfl⟩ := hnul
    rw [hdata]
    exact untilNul_eq _ h0 rest' 5381

theorem hashLoop_eq (mem : List UInt8) {n start fuel : ℕ} (hn : start + n ≤ mem.length) (hfuel : n ≤ fuel)
    (hash : UInt64) :
    StringView.hashLoop mem (start + n) fuel start hash = some (mixAll ofChar ((mem.drop start).take n) hash) := by
  induction n generalizing start fuel hash with
  | zero => cases fuel <;> simp [StringView.hashLoop, mixAll]
  | succ n ih =>
    obtain ⟨fuel, rfl⟩ : ∃ m, fuel = m + 1 := ⟨fuel - 1, by omega⟩
    have hlt : start < mem.length := by omega
    have hread : read mem start = some mem[start] := by
      rw [read, if_neg (by omega), Int.toNat_natCast, List.getElem?_eq_getElem hlt]
    have hstop : ((start : ℤ) + (n + 1 : ℕ)) = ((start + 1 : ℕ) : ℤ) + n := by push_cast; ring
    rw [StringView.hashLoop, if_neg (by omega), hread, Option.bind_some, hstop, List.drop_eq_getElem_cons hlt,
      List.take_succ_cons]
    exact ih (by omega) (by omega) _

namespace View

theorem size_eq (start n : ℕ) : StringView.size ⟨some start, some ((start : ℤ) + n - 1)⟩ = n := by
  simp only [StringView.size]
  omega

/-- the memory behind `startp` starts with the characters of the view -/
theorem bytes_eq (v : View) : ∃ rest, v.view.bytes v.mem = v.view.chars v.mem ++ rest ∧
    (v.view.chars v.mem).length = v.view.size := by
  obtain ⟨mem, view, rfl | ⟨start, n, rfl, hn⟩⟩ := v
  · exact ⟨[], rfl, rfl⟩
  · refine ⟨(mem.drop start).drop n, ?_, ?_⟩
    · simp only [StringView.chars, StringView.bytes, size_eq, Int.toNat_natCast, List.take_append_drop]
    · simp only [StringView.chars, size_eq, Int.toNat_natCast, List.length_take, List.length_drop]
      omega

/-- the hash of a view -/
theorem hash_eq (v : View) :
    v.view.hash v.mem = if v.view.startp.isNone then none else some (mixAll ofChar (v.view.chars v.mem) 5381) := by
  obtain ⟨mem, view, rfl | ⟨start, n, rfl, hn⟩⟩ := v
  · rfl
  · have hend : (start : ℤ) + n - 1 + 1 = start + n := by ring
    simp only [StringView.chars, StringView.hash, size_eq, Int.toNat_natCast, hend]
    exact hashLoop_eq mem hn (by omega) 5381

end View

namespace Operand

/-- the fold that is the hash of an operand -/
def mixed (x : Operand) : UInt64 := mixAll (if x.isView then ofChar else UInt8.toUInt64) x.contents 5381

theorem hash_eq (x : Operand) (h0 : 0 ∉ x.contents) : x.hash = if x.isNull then none else some x.mixed := by
  cases x with
  | view v => exact v.hash_eq
  | string s => exact hash_string s h0

theorem eq_spec (x y : Operand) : x.eq y = some (decide (x.contents = y.contents)) := by
  have hmixed : ∀ (v : View) (s : QsString), v.view.eqString v.mem s =
      some (decide (v.view.chars v.mem = s.contents)) := by
    intro v s
    obtain ⟨us, hv, hlv⟩ := v.bytes_eq
    obtain ⟨vs, hs, hls⟩ := s.data_eq
    rw [StringView.eqString, hv, hs, ← hlv, ← hls, equalBytes_spec]
  cases x with
  | view v =>
    cases y with
    | view w =>
      obtain ⟨us, hv, hlv⟩ := v.bytes_eq
      obtain ⟨vs, hw, hlw⟩ := w.bytes_eq
      rw [eq, StringView.eq, hv, hw, ← hlv, ← hlw, equalBytes_spec]
      rfl
    | string s => exact hmixed v s
  | string s =>
    cases y with
    | view v =>
      refine (hmixed v s).trans ?_
      rw [contents, contents, decide_eq_decide.2 eq_comm]
    | string t => exact QsString.eq_spec s t

end Operand

/-- **Hash agreement.** Operands that are `==` have the same hash exactly when they have a buffer and, if one is a view
and the other a string, the weight of the bytes from 128 on is a multiple of `2 ^ 56`. -/
theorem hashAgrees_iff (x y : Operand) (h0 : 0 ∉ x.contents) :
    HashAgrees x y ↔ x.contents ≠ y.contents ∨
      (x.isNull = false ∧ y.isNull = false ∧ (x.isView = y.isView ∨ 2 ^ 56 ∣ highWeight x.contents)) := by
  rw [HashAgrees, x.eq_spec y, Option.some.injEq, decide_eq_true_eq]
  by_cases hxy : x.contents = y.contents
  · have hsame : x.mixed = y.mixed ↔ x.isView = y.isView ∨ 2 ^ 56 ∣ highWeight x.contents := by
      rw [Operand.mixed, Operand.mixed, ← hxy, ← mixAll_char x.contents 5381]
      cases x.isView <;> cases y.isView <;> simp [eq_comm]
    rw [x.hash_eq h0, y.hash_eq (hxy ▸ h0), ← hsame]
    cases x.isNull <;> cases y.isNull <;> simp [hxy, eq_comm]
  · simp [hxy]

/-- a view of `"ab"` and the string -/
theorem hashAgrees_ascii :
    let x := Operand.view ⟨[97, 98, 0], ⟨some 0, some 1⟩, .inr ⟨0, 2, by decide, by decide⟩⟩
    let y := Operand.string ⟨some [97, 98, 0], 3, 2, by decide⟩
    0 ∉ x.contents ∧ (HashAgrees x y ↔ x.contents ≠ y.contents ∨
      (x.isNull = false ∧ y.isNull = false ∧ (x.isView = y.isView ∨ 2 ^ 56 ∣ highWeight x.contents))) :=
  ⟨by decide, hashAgrees_iff _ _ (by decide)⟩

/-- one byte 200: the view's hash adds -56 -/
theorem hash_high_byte :
    let x := Operand.view ⟨[200, 0], ⟨some 0, some 0⟩, .inr ⟨0, 1, by decide, by decide⟩⟩
    let y := Operand.string ⟨some [200, 0], 2, 1, by decide⟩
    x.hash = some 177517 ∧ y.hash = some 177773 ∧ ¬HashAgrees x y := by
  refine ⟨by decide +kernel, by decide +kernel, ?_⟩
  intro h
  obtain ⟨hash, hx, hy⟩ := h (by decide)
  exact absurd (hx.trans hy.symm) (by decide +kernel)

/-! ## `hash_i` -/

theorem CString.untilNul_isSome (el : CString) (step : UInt64 → UInt8 → UInt64) (hash : UInt64) :
    (untilNul step el.mem hash).isSome = true := by
  obtain ⟨bs, rest, hmem, h0⟩ := List.eq_append_cons_of_mem el.terminated
  rw [hmem, untilNul_eq step h0]
  rfl

theorem hashI_isSome (el : CString) (i : ℤ) : (hashI el.mem i).isSome = true ↔ i * i < 2 ^ 31 := by
  obtain ⟨d, hd⟩ := Option.isSome_iff_exists.1 (el.untilNul_isSome (fun hash c => mix hash c.toUInt64) 5381)
  obtain ⟨s, hs⟩ := Option.isSome_iff_exists.1
    (el.untilNul_isSome (fun hash c => c.toUInt64 + (hash <<< 6) + (hash <<< 16) - hash) 0)
  rw [hashI, djb2, hd, Option.bind_some, sdbm, hs, Option.bind_some]
  split
  · next h => exact iff_of_true rfl h
  · next h => exact iff_of_false Bool.false_ne_true h

end K23Search.Text
