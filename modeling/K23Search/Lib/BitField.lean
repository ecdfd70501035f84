/-
Bit fields kept in bytes: bit `p` is bit `p % 8` of byte `p / 8`.

- `bitAt_setBit`: setting a bit sets that bit and no other;
- `and_mask_eq_zero`: masking a byte with one bit reads it;
- `bitAt_zipWith_or`: OR of two fields, byte by byte, is the union of their bits.
-/
import Mathlib.Data.List.Basic
import Mathlib.Data.Nat.Bitwise
import Mathlib.Algebra.GroupWithZero.Nat

namespace K23Search.Lib

/-- one bit within its byte -/
def bitMask (p : ℕ) : UInt8 := UInt8.ofNat (1 <<< (p % 8))

def bitAt (bytes : List UInt8) (p : ℕ) : Bool := (bytes.getD (p / 8) 0).toNat.testBit (p % 8)

def setBit (bytes : List UInt8) (p : ℕ) : List UInt8 := bytes.set (p / 8) (bytes.getD (p / 8) 0 ||| bitMask p)

theorem bitMask_toNat (p : ℕ) : (bitMask p).toNat = 2 ^ (p % 8) := by
  have hlt : 2 ^ (p % 8) < 2 ^ 8 := Nat.pow_lt_pow_right (by omega) (Nat.mod_lt _ (by omega))
  rw [bitMask, UInt8.toNat_ofNat', Nat.one_shiftLeft, Nat.mod_eq_of_lt hlt]

@[simp] theorem length_setBit (bytes : List UInt8) (p : ℕ) : (setBit bytes p).length = bytes.length :=
  List.length_set

/-- masking reads the bit -/
theorem and_mask_eq_zero (bytes : List UInt8) (p : ℕ) :
    bytes.getD (p / 8) 0 &&& bitMask p = 0 ↔ bitAt bytes p = false := by
  rw [← UInt8.toNat_inj, UInt8.toNat_and, bitMask_toNat, Nat.and_two_pow, UInt8.toNat_zero, bitAt]
  cases (bytes.getD (p / 8) 0).toNat.testBit (p % 8) <;> simp

/-- setting a bit of the field -/
theorem bitAt_setBit {bytes : List UInt8} {p : ℕ} (hp : p / 8 < bytes.length) (q : ℕ) :
    bitAt (setBit bytes p) q = (decide (q = p) || bitAt bytes q) := by
  by_cases hbyte : q / 8 = p / 8
  · have hbit : q % 8 = p % 8 ↔ q = p := by omega
    rw [bitAt, bitAt, setBit, hbyte, List.getD_eq_getElem?_getD, List.getElem?_set_self hp, Option.getD_some,
      UInt8.toNat_or, Nat.testBit_or, bitMask_toNat, Nat.testBit_two_pow, Bool.or_comm]
    congr 1
    rw [decide_eq_decide, eq_comm, hbit]
  · have hne : q ≠ p := fun heq => hbyte (by rw [heq])
    rw [bitAt, bitAt, setBit, List.getD_eq_getElem?_getD, List.getElem?_set_ne (Ne.symm hbyte),
      ← List.getD_eq_getElem?_getD, decide_eq_false hne, Bool.false_or]

theorem bitAt_zipWith_or {xs ys : List UInt8} (h : xs.length = ys.length) (p : ℕ) :
    bitAt (List.zipWith (· ||| ·) xs ys) p = (bitAt xs p || bitAt ys p) := by
  rw [bitAt, bitAt, bitAt, List.getD_eq_getElem?_getD, List.getD_eq_getElem?_getD, List.getD_eq_getElem?_getD,
    List.getElem?_zipWith]
  by_cases hp : p / 8 < xs.length
  · have hp' : p / 8 < ys.length := h ▸ hp
    rw [List.getElem?_eq_getElem hp, List.getElem?_eq_getElem hp']
    simp
  · have hp' : ¬p / 8 < ys.length := h ▸ hp
    rw [List.getElem?_eq_none (Nat.le_of_not_lt hp), List.getElem?_eq_none (Nat.le_of_not_lt hp')]
    simp

end K23Search.Lib
