/-
Buffers that are written in ranges, with every access checked: `none` is an access outside a buffer.

A buffer is cut at the place of a write, and the write replaces the middle part.

- `overwrite_middle`, `memcpy_middle`, `poke_middle`: a write of as many elements as the middle part has;
- `memcpy_whole`, `memcpy_memcpy`: a buffer that is written from its start, in one copy or two;
- `memmove_down`: a move down by one place drops an element and repeats the last one.
-/
import Mathlib.Data.List.Basic

namespace K23Search.Lib

variable {α : Type*}

/-- write `xs` at `i` -/
def overwrite (buf : List α) (i : ℕ) (xs : List α) : Option (List α) :=
  if i + xs.length ≤ buf.length then some (buf.take i ++ xs ++ buf.drop (i + xs.length)) else none

/-- copy the first `n` elements of `src` to `i` -/
def memcpy (buf : List α) (i : ℕ) (src : List α) (n : ℕ) : Option (List α) :=
  if n ≤ src.length then overwrite buf i (src.take n) else none

/-- move `n` elements from `src` to `dst`; the ranges may overlap -/
def memmove (buf : List α) (dst src n : ℕ) : Option (List α) :=
  if src + n ≤ buf.length then overwrite buf dst ((buf.drop src).take n) else none

/-- write one element -/
def poke (buf : List α) (i : ℕ) (x : α) : Option (List α) := overwrite buf i [x]

theorem overwrite_middle (xs ys zs vs : List α) {i : ℕ} (hi : i = xs.length)
    (hlen : vs.length = ys.length) : overwrite (xs ++ ys ++ zs) i vs = some (xs ++ vs ++ zs) := by
  have hbound : xs.length + vs.length ≤ (xs ++ ys ++ zs).length := by
    simp only [List.length_append]
    omega
  have htake : (xs ++ ys ++ zs).take xs.length = xs := by rw [List.append_assoc, List.take_left]
  have hdrop : (xs ++ ys ++ zs).drop (xs.length + ys.length) = zs := by rw [← List.length_append, List.drop_left]
  rw [overwrite, hi, if_pos hbound, hlen, htake, hdrop]

theorem memcpy_middle (xs ys zs vs rest : List α) {i n : ℕ} (hi : i = xs.length) (hn : n = vs.length)
    (hlen : vs.length = ys.length) :
    memcpy (xs ++ ys ++ zs) i (vs ++ rest) n = some (xs ++ vs ++ zs) := by
  rw [memcpy, hn, if_pos (by rw [List.length_append]; omega), List.take_left]
  exact overwrite_middle xs ys zs vs hi hlen

theorem memcpy_whole (buf vs rest : List α) {n : ℕ} (hn : n = vs.length) (hlen : buf.length = vs.length) :
    memcpy buf 0 (vs ++ rest) n = some vs := by
  rw [memcpy, hn, if_pos (by rw [List.length_append]; omega), List.take_left]
  have h := overwrite_middle [] buf [] vs rfl hlen.symm
  simpa using h

theorem poke_middle (xs zs : List α) {i : ℕ} (y x : α) (hi : i = xs.length) :
    poke (xs ++ y :: zs) i x = some (xs ++ x :: zs) := by
  have h := overwrite_middle xs [y] zs [x] hi rfl
  rwa [List.append_assoc, List.append_assoc] at h

theorem memmove_down (xs zs rest : List α) (y z : α) {i n : ℕ} (hi : i = xs.length) (hn : n = zs.length + 1) :
    memmove (xs ++ y :: (zs ++ z :: rest)) i (i + 1) n = some (xs ++ (zs ++ z :: z :: rest)) := by
  have hsrc : ((xs ++ y :: (zs ++ z :: rest)).drop (xs.length + 1)).take (zs.length + 1) = zs ++ [z] := by
    rw [← List.drop_drop, List.drop_left, List.drop_one, List.tail_cons, List.append_cons]
    exact List.take_left' (List.length_append ..)
  have h := overwrite_middle xs (y :: zs) (z :: rest) (zs ++ [z]) rfl (List.length_append ..)
  rw [memmove, hi, hn, if_pos (by simp only [List.length_append, List.length_cons]; omega), hsrc]
  simpa using h

theorem exists_split {l : List α} {m n : ℕ} (h : l.length = m + n) :
    ∃ xs ys, l = xs ++ ys ∧ xs.length = m ∧ ys.length = n := by
  refine ⟨l.take m, l.drop m, (List.take_append_drop m l).symm, ?_, ?_⟩
  · rw [List.length_take]
    omega
  · rw [List.length_drop]
    omega

/-- two copies, one behind the other, into a buffer with room for both -/
theorem memcpy_memcpy (buf xs ys rest rest' : List α) {m n : ℕ} (hm : m = xs.length) (hn : n = ys.length)
    (hroom : m + n ≤ buf.length) :
    ∃ zs, ((memcpy buf 0 (xs ++ rest) m).bind fun buf => memcpy buf m (ys ++ rest') n) = some (xs ++ ys ++ zs) ∧
      m + n + zs.length = buf.length := by
  obtain ⟨us, vs, rfl, hus, hvs⟩ := exists_split (l := buf) (m := m) (n := buf.length - m) (by omega)
  rw [List.length_append] at hvs hroom ⊢
  obtain ⟨ws, zs, rfl, hws, hzs⟩ := exists_split (l := vs) (m := n) (n := vs.length - n) (by omega)
  refine ⟨zs, ?_, ?_⟩
  · have hfirst : memcpy (us ++ (ws ++ zs)) 0 (xs ++ rest) m = some (xs ++ ws ++ zs) := by
      rw [List.append_assoc xs]
      exact memcpy_middle [] us (ws ++ zs) xs rest rfl hm (hm ▸ hus.symm)
    rw [hfirst, Option.bind_some]
    exact memcpy_middle xs ws zs ys rest' hm hn (hn ▸ hws.symm)
  · rw [hus, List.length_append, hws]
    omega

end K23Search.Lib
