/-
The string view and the tokenizer (string_view.h, string_view.cpp, parser.hpp).

A view is a pair of pointers into a buffer; `endp` points at the last character, so an empty view ends one before its
start. `split` cuts the view at the first delimiter and the loop of `parse_string` calls the callback until a piece is
empty. The model keeps the pointers: a read outside the buffer is `none`, and so is a loop that runs out of fuel.

Results:
- `parseString_eq`: on every NUL-terminated string the loop ends, and the callback gets `cut` of its pieces;
- `cut_eq_words_iff`: these are the maximal delimiter-free runs exactly for `Spaced` strings;
- `parse_complete_iff`: both together, for the code.
Counterexample:
- `trailing_delimiter`: `"First/"`, the string of the repository's own test, has a word and no callback.
-/
import Mathlib.Data.Int.Notation
import Mathlib.Data.List.Basic

namespace K23Search.Text

/-! ## Model -/

/-- the character at pointer `p` of the buffer -/
def read (mem : List UInt8) (p : ℤ) : Option UInt8 := if p < 0 then none else mem[p.toNat]?

/-- `nullptr` is `none` -/
structure StringView where
  startp : Option ℤ
  endp : Option ℤ
deriving DecidableEq, Repr

namespace StringView

def empty : StringView := ⟨none, none⟩

def size (v : StringView) : ℕ :=
  match v.startp, v.endp with
  | some startp, some endp => (endp - startp + 1).toNat
  | _, _ => 0

/-- the scan of the constructor: `endp` and `ss` up to the NUL byte -/
def findNul (mem : List UInt8) : ℕ → ℤ → ℤ → Option ℤ
  | 0, _, _ => none
  | fuel + 1, ss, endp => (read mem ss).bind fun ch =>
    if ch ≠ 0 then findNul mem fuel (ss + 1) (endp + 1) else some endp

/-- `string_view(const char *s)` -/
def ofPointer (mem : List UInt8) (s : ℤ) : Option StringView :=
  (findNul mem (mem.length + 1) s s).map fun endp => ⟨some s, some (endp - 1)⟩

/-- the scan of `split`: stops at the first `needle`, or at `endp` -/
def findNeedle (mem : List UInt8) (needle : UInt8) (endp : ℤ) : ℕ → ℤ → Option ℤ
  | 0, _ => none
  | fuel + 1, ss => (read mem ss).bind fun ch =>
    if ch ≠ needle ∧ ss ≠ endp then findNeedle mem needle endp fuel (ss + 1) else some ss

/-- `split(needle, start)`: the piece returned and the view left in `*this` -/
def split (mem : List UInt8) (v : StringView) (needle : UInt8) (start : ℤ) : Option (StringView × StringView) :=
  if v.size = 0 then some (empty, v)
  else match v.startp, v.endp with
    | some startp, some endp =>
      let newStart := startp + start
      (findNeedle mem needle endp (mem.length + 1) newStart).bind fun ss =>
        (read mem endp).bind fun last =>
          if ss = endp ∧ last ≠ needle then some (⟨some newStart, some endp⟩, empty)
          else if ss = endp then some (empty, empty)
          else some (⟨some newStart, some (ss - 1)⟩, ⟨some (ss + 1), some endp⟩)
    | _, _ => none

/-- the characters of the view -/
def chars (mem : List UInt8) (v : StringView) : List UInt8 :=
  match v.startp with
  | some startp => (mem.drop startp.toNat).take v.size
  | none => []

end StringView

open StringView

/-- the loop of `parse_string`: the views passed to the callback, in order -/
def parseLoop (mem : List UInt8) (del : UInt8) : ℕ → StringView → Option (List StringView)
  | 0, _ => none
  | fuel + 1, stream => (split mem stream del 0).bind fun r =>
    if r.1.size = 0 then some [] else (parseLoop mem del fuel r.2).map (r.1 :: ·)

def parseString (mem : List UInt8) (stream : ℤ) (del : UInt8) : Option (List StringView) :=
  (ofPointer mem stream).bind fun v => parseLoop mem del (mem.length + 1) v

/-! ## The pieces of a string -/

/-- what the loop makes of the pieces between the delimiters: it takes them up to the first empty one, and loses a piece
whose delimiter is the last character of the string (third exit of `split`) -/
def cut : List (List UInt8) → List (List UInt8)
  | [] => []
  | [_, []] => []
  | w :: ws => if w = [] then [] else w :: cut ws

/-- the maximal non-empty runs without `del`, from left to right -/
def words (del : UInt8) (s : List UInt8) : List (List UInt8) := (s.splitOn del).filter (· ≠ [])

/-- non-empty words with single delimiters between them, then possibly more delimiters, but not exactly one after a
word -/
def Spaced (del : UInt8) (s : List UInt8) : Prop :=
  ∃ ws n, (∀ w ∈ ws, w ≠ []) ∧ s.splitOn del = ws ++ List.replicate n [] ∧ (ws = [] ∨ n ≠ 1)

/-- the pieces have no delimiter, and there are at most as many as characters and the end -/
theorem pieces_spec (del : UInt8) (s : List UInt8) :
    (s.splitOn del).length ≤ s.length + 1 ∧ ∀ w ∈ s.splitOn del, del ∉ w := by
  induction s with
  | nil => simp [List.splitOn_nil]
  | cons x s ih =>
    rw [List.splitOn_cons_eq_if_modifyHead]
    by_cases hx : x = del
    · simp only [hx, beq_self_eq_true, if_true, List.length_cons, List.mem_cons]
      refine ⟨by omega, fun w hw => ?_⟩
      cases hw with
      | inl hw => simp [hw]
      | inr hw => exact ih.2 w hw
    · simp only [beq_iff_eq, hx, if_false]
      cases hps : s.splitOn del with
      | nil => simp
      | cons u us =>
        rw [hps] at ih
        simp only [List.modifyHead_cons, List.length_cons, List.mem_cons] at ih ⊢
        refine ⟨by omega, fun w hw => ?_⟩
        cases hw with
        | inl hw => simp [hw, Ne.symm hx, ih.2 u (.inl rfl)]
        | inr hw => exact ih.2 w (.inr hw)

@[simp] theorem cut_single (w : List UInt8) : cut [w] = if w = [] then [] else [w] := by
  cases w <;> simp [cut]

theorem cut_cons {w : List UInt8} {ws : List (List UInt8)} (h : ws ≠ [[]]) :
    cut (w :: ws) = if w = [] then [] else w :: cut ws := by
  match ws, h with
  | [], _ => simp [cut]
  | [] :: [], h => exact absurd rfl h
  | (_ :: _) :: _, _ => simp [cut]
  | [] :: _ :: _, _ => simp [cut]

/-- the loop makes no words up -/
theorem cut_subset {ps : List (List UInt8)} {w : List UInt8} (h : w ∈ cut ps) : w ∈ ps ∧ w ≠ [] := by
  induction ps with
  | nil => cases h
  | cons u ps ih =>
    by_cases hps : ps = [[]]
    · subst hps
      cases h
    · rw [cut_cons hps] at h
      split at h
      · cases h
      · next hu =>
        rcases List.mem_cons.1 h with rfl | h
        · exact ⟨List.mem_cons_self, hu⟩
        · exact ⟨List.mem_cons_of_mem _ (ih h).1, (ih h).2⟩

@[simp] theorem cut_replicate (n : ℕ) : cut (List.replicate n []) = [] := by
  match n with
  | 0 => rfl
  | 1 => rfl
  | 2 => rfl
  | n + 3 => simp [List.replicate_succ, cut]

theorem cut_spaced {ws : List (List UInt8)} {n : ℕ} (hws : ∀ w ∈ ws, w ≠ []) (hn : ws = [] ∨ n ≠ 1) :
    cut (ws ++ List.replicate n []) = ws := by
  induction ws with
  | nil => exact cut_replicate n
  | cons w ws ih =>
    have hn1 : n ≠ 1 := hn.resolve_left (List.cons_ne_nil w ws)
    have hrest : ws ++ List.replicate n [] ≠ [[]] := by
      intro h
      cases ws with
      | nil => exact hn1 (by simpa using congrArg List.length h)
      | cons u us =>
        simp only [List.cons_append, List.cons.injEq] at h
        exact hws u (by simp) h.1
    rw [List.cons_append, cut_cons hrest, if_neg (hws w (by simp)), ih (fun u hu => hws u (by simp [hu])) (.inr hn1)]

theorem filter_pieces {ws : List (List UInt8)} (n : ℕ) (hws : ∀ w ∈ ws, w ≠ []) :
    (ws ++ List.replicate n []).filter (· ≠ []) = ws := by
  rw [List.filter_append, List.filter_eq_self.2 (by simpa using hws), List.filter_eq_nil_iff.2 (by simp), List.append_nil]

/-- pieces of which none is lost are words and then empty pieces -/
theorem spaced_of_cut {ps : List (List UInt8)} (h : cut ps = ps.filter (· ≠ [])) :
    ∃ ws n, (∀ w ∈ ws, w ≠ []) ∧ ps = ws ++ List.replicate n [] ∧ (ws = [] ∨ n ≠ 1) := by
  induction ps with
  | nil => exact ⟨[], 0, by simp⟩
  | cons w ps ih =>
    by_cases hps : ps = [[]]
    · subst hps
      have hw : w = [] := by
        by_contra hw
        simp [cut, hw] at h
      exact ⟨[], 2, by simp [hw, List.replicate_succ]⟩
    · rw [cut_cons hps] at h
      by_cases hw : w = []
      · -- the loop stops here, so no word may follow
        have hall : ∀ u ∈ ps, u = [] := by
          intro u hu
          by_contra hne
          have hmem : u ∈ (w :: ps).filter (· ≠ []) := by simp [hu, hne]
          rw [← h, if_pos hw] at hmem
          exact List.not_mem_nil hmem
        refine ⟨[], ps.length + 1, by simp, ?_, .inl rfl⟩
        rw [List.nil_append, List.replicate_succ, hw, ← List.eq_replicate_of_mem hall]
      · obtain ⟨ws, n, hws, hps', hn⟩ := ih (by simpa [hw] using h)
        refine ⟨w :: ws, n, by simpa [hw] using hws, by rw [hps', List.cons_append], .inr fun h1 => ?_⟩
        subst h1
        exact hps (by simpa [hn.resolve_right (by simp)] using hps')

/-- **Which strings lose no word.** -/
theorem cut_eq_words_iff (del : UInt8) (s : List UInt8) : cut (s.splitOn del) = words del s ↔ Spaced del s := by
  constructor
  · exact spaced_of_cut
  · intro h
    obtain ⟨ws, n, hws, hs, hn⟩ := h
    rw [words, hs, cut_spaced hws hn, filter_pieces n hws]

/-! ## The code computes the pieces -/

section Code

variable {mem pre post : List UInt8} {del : UInt8}

theorem read_at (pre post : List UInt8) (x : UInt8) : read (pre ++ x :: post) pre.length = some x := by
  simp [read]

theorem findNul_spec {w : List UInt8} (hmem : mem = pre ++ w ++ 0 :: post) (hw : 0 ∉ w) {fuel : ℕ}
    (hf : w.length < fuel) (endp : ℤ) : findNul mem fuel pre.length endp = some (endp + w.length) := by
  induction w generalizing pre fuel endp with
  | nil =>
    obtain ⟨fuel, rfl⟩ : ∃ n, fuel = n + 1 := ⟨fuel - 1, by simp at hf; omega⟩
    have h0 : read mem pre.length = some 0 := by rw [hmem, List.append_nil, read_at]
    simp [findNul, h0]
  | cons a w ih =>
    obtain ⟨fuel, rfl⟩ : ∃ n, fuel = n + 1 := ⟨fuel - 1, by simp at hf; omega⟩
    have ha : read mem pre.length = some a := by simp [hmem, read]
    have hne : a ≠ 0 := fun h => hw (by simp [h])
    have hmem' : mem = (pre ++ [a]) ++ w ++ 0 :: post := by simp [hmem]
    have := ih hmem' (fun h => hw (by simp [h])) (by simpa using hf) (endp + 1)
    simp only [List.length_append, List.length_singleton, Int.natCast_add, Int.natCast_one] at this
    simp only [findNul, ha, Option.bind_some, hne, ne_eq, not_false_eq_true, if_true, this, List.length_cons,
      Int.natCast_add, Int.natCast_one]
    congr 1
    omega

theorem findNeedle_spec {w : List UInt8} {x : UInt8} (hmem : mem = pre ++ w ++ x :: post) (hw : del ∉ w) (fuel : ℕ)
    (hf : w.length < fuel) (endp : ℤ) (hle : pre.length + w.length ≤ endp)
    (hx : x = del ∨ endp = pre.length + w.length) :
    findNeedle mem del endp fuel pre.length = some ((pre.length : ℤ) + w.length) := by
  induction w generalizing pre fuel with
  | nil =>
    obtain ⟨fuel, rfl⟩ : ∃ n, fuel = n + 1 := ⟨fuel - 1, by simp at hf; omega⟩
    have hr : read mem pre.length = some x := by rw [hmem, List.append_nil, read_at]
    have hstop : ¬ (x ≠ del ∧ (pre.length : ℤ) ≠ endp) := by
      intro h
      cases hx with
      | inl hx => exact h.1 hx
      | inr hx => exact h.2 (by simpa using hx.symm)
    simp [findNeedle, hr, hstop]
  | cons a w ih =>
    obtain ⟨fuel, rfl⟩ : ∃ n, fuel = n + 1 := ⟨fuel - 1, by simp at hf; omega⟩
    have ha : read mem pre.length = some a := by simp [hmem, read]
    have hgo : a ≠ del ∧ (pre.length : ℤ) ≠ endp := by
      refine ⟨fun h => hw (by simp [h]), ?_⟩
      simp only [List.length_cons, Int.natCast_add, Int.natCast_one] at hle
      omega
    simp only [List.length_cons, Int.natCast_add, Int.natCast_one] at hle hx
    have hmem' : mem = (pre ++ [a]) ++ w ++ x :: post := by simp [hmem]
    have := ih hmem' (fun h => hw (by simp [h])) fuel (by simpa using hf)
      (by simp only [List.length_append, List.length_singleton]; omega)
      (hx.imp_right fun h => by simp only [List.length_append, List.length_singleton]; omega)
    simp only [List.length_append, List.length_singleton, Int.natCast_add, Int.natCast_one] at this
    rw [findNeedle, ha, Option.bind_some, if_pos hgo, this, List.length_cons]
    exact congrArg some (by omega)

/-- the view of the part `w` of the buffer after `pre` -/
def viewOf (pre w : List UInt8) : StringView := ⟨some pre.length, some (pre.length + w.length - 1)⟩

@[simp] theorem size_viewOf (pre w : List UInt8) : (viewOf pre w).size = w.length := by
  simp only [viewOf, StringView.size]
  omega

theorem chars_viewOf {w : List UInt8} (hmem : mem = pre ++ w ++ post) : chars mem (viewOf pre w) = w := by
  rw [chars, size_viewOf]
  simp [viewOf, hmem]

@[simp] theorem size_empty : StringView.empty.size = 0 := rfl

theorem split_of_size {v : StringView} (h : v.size = 0) (start : ℤ) : split mem v del start = some (empty, v) :=
  if_pos h

/-- the exits of `split` for a view that is not empty -/
theorem split_eq {startp endp ss : ℤ} {last : UInt8} (hsize : startp ≤ endp)
    (hscan : findNeedle mem del endp (mem.length + 1) startp = some ss) (hlast : read mem endp = some last) :
    split mem ⟨some startp, some endp⟩ del 0 = some (
      if ss = endp then if last ≠ del then (⟨some startp, some endp⟩, empty) else (empty, empty)
      else (⟨some startp, some (ss - 1)⟩, ⟨some (ss + 1), some endp⟩)) := by
  have hne : ¬ StringView.size ⟨some startp, some endp⟩ = 0 := by simp only [StringView.size]; omega
  simp only [split, if_neg hne, Int.add_zero, hscan, hlast, Option.bind_some]
  by_cases hss : ss = endp <;> by_cases hd : last = del <;> simp [hss, hd]

/-- no delimiter left: the rest of the string is the last piece -/
theorem split_last {w : List UInt8} (hmem : mem = pre ++ w ++ post) (hne : w ≠ []) (hw : del ∉ w) :
    split mem (viewOf pre w) del 0 = some (viewOf pre w, empty) := by
  obtain ⟨u, x, rfl⟩ : ∃ u x, w = u ++ [x] := ⟨w.dropLast, w.getLast hne, (List.dropLast_append_getLast hne).symm⟩
  have hend : (pre.length : ℤ) + (u ++ [x]).length - 1 = pre.length + u.length := by
    rw [List.length_append, List.length_singleton]
    omega
  have hmem' : mem = pre ++ u ++ x :: post := by simp [hmem]
  have hu : del ∉ u := fun h => hw (List.mem_append_left _ h)
  have hx : x ≠ del := fun h => hw (by simp [h])
  have hscan := findNeedle_spec hmem' hu (mem.length + 1) (by simp [hmem']; omega) (pre.length + u.length)
    (by omega) (.inr rfl)
  have hlast : read mem (pre.length + u.length) = some x := by
    rw [hmem', ← Int.natCast_add, ← List.length_append, read_at]
  rw [viewOf, hend, split_eq (by omega) hscan hlast, if_pos rfl, if_pos hx]

/-- a delimiter: the piece before it and the view after it, both empty when nothing follows -/
theorem split_needle {w s : List UInt8} (hmem : mem = pre ++ (w ++ del :: s) ++ post) (hw : del ∉ w) :
    split mem (viewOf pre (w ++ del :: s)) del 0 =
      some (if s = [] then (empty, empty) else (viewOf pre w, viewOf (pre ++ w ++ [del]) s)) := by
  have hend : (pre.length : ℤ) + (w ++ del :: s).length - 1 = pre.length + w.length + s.length := by
    rw [List.length_append, List.length_cons]
    omega
  have hmem' : mem = pre ++ w ++ del :: (s ++ post) := by simp [hmem]
  have hscan := findNeedle_spec hmem' hw (mem.length + 1) (by simp [hmem']; omega)
    (pre.length + w.length + s.length) (by omega) (.inl rfl)
  by_cases hs : s = []
  · subst hs
    have hlast : read mem (pre.length + w.length) = some del := by
      rw [hmem', ← Int.natCast_add, ← List.length_append, read_at]
    rw [if_pos rfl, viewOf, hend, split_eq (by omega) hscan (by simpa using hlast), if_pos (by simp), if_neg (by simp)]
  · obtain ⟨u, x, rfl⟩ : ∃ u x, s = u ++ [x] := ⟨s.dropLast, s.getLast hs, (List.dropLast_append_getLast hs).symm⟩
    have hlast : read mem (pre.length + w.length + (u ++ [x]).length) = some x := by
      have hpos : (pre.length : ℤ) + w.length + (u ++ [x]).length = (pre ++ w ++ del :: u).length := by
        simp only [List.length_append, List.length_cons, List.length_nil]
        omega
      rw [hpos, show mem = pre ++ w ++ del :: u ++ x :: post by simp [hmem], read_at]
    have hmore : ¬ (pre.length : ℤ) + w.length = pre.length + w.length + (u ++ [x]).length := by
      rw [List.length_append, List.length_singleton]
      omega
    have hrest : (pre.length : ℤ) + w.length + (u ++ [x]).length =
        (pre ++ w ++ [del]).length + (u ++ [x]).length - 1 := by
      simp only [List.length_append, List.length_singleton]
      omega
    rw [if_neg hs, viewOf, hend, split_eq (by omega) hscan hlast, if_neg hmore, hrest]
    simp only [viewOf, List.length_append, List.length_singleton, Int.natCast_add, Int.natCast_one]

/-- the loop makes of a string what `cut` makes of its pieces -/
theorem parseLoop_spec {ps : List (List UInt8)} (hps : ps ≠ []) (hdel : ∀ w ∈ ps, del ∉ w) {fuel : ℕ}
    (hf : ps.length < fuel) (hmem : mem = pre ++ [del].intercalate ps ++ post) :
    ∃ vs, parseLoop mem del fuel (viewOf pre ([del].intercalate ps)) = some vs ∧ vs.map (chars mem) = cut ps := by
  induction ps generalizing pre fuel with
  | nil => exact absurd rfl hps
  | cons w ps ih =>
    obtain ⟨fuel, rfl⟩ : ∃ n, fuel = n + 1 := ⟨fuel - 1, by omega⟩
    have hw : del ∉ w := hdel w (by simp)
    by_cases hlast : ps = []
    · subst hlast
      rw [List.intercalate_singleton] at hmem ⊢
      by_cases hne : w = []
      · exact ⟨[], by simp [parseLoop, split_of_size, hne], by simp [hne]⟩
      · obtain ⟨fuel, rfl⟩ : ∃ n, fuel = n + 1 := ⟨fuel - 1, by simp at hf; omega⟩
        have hempty : split mem empty del 0 = some (empty, empty) := split_of_size size_empty 0
        exact ⟨[viewOf pre w], by simp [parseLoop, split_last hmem hne hw, hne, hempty],
          by simp [hne, chars_viewOf hmem]⟩
    · have hjoin : [del].intercalate (w :: ps) = w ++ del :: [del].intercalate ps := by
        rw [List.intercalate_cons_of_ne_nil hlast, List.append_assoc, List.singleton_append]
      rw [hjoin] at hmem ⊢
      have hmem' : mem = pre ++ w ++ [del] ++ [del].intercalate ps ++ post := by simp [hmem]
      simp only [parseLoop, split_needle hmem hw, Option.bind_some]
      by_cases hone : ps = [[]]
      · -- the delimiter is the last character: the word before it is lost
        exact ⟨[], by simp [hone], by simp [hone, cut]⟩
      · have hrest : [del].intercalate ps ≠ [] := by
          intro h
          cases ps with
          | nil => exact hlast rfl
          | cons u us =>
            cases us with
            | nil => exact hone (by simpa using h)
            | cons t ts => simp at h
        rw [cut_cons hone]
        by_cases hne : w = []
        · exact ⟨[], by simp [hne, hrest], by simp [hne]⟩
        · obtain ⟨vs, hvs, hchars⟩ := ih hlast (fun u hu => hdel u (by simp [hu])) (by simpa using hf) hmem'
          refine ⟨viewOf pre w :: vs, ?_, ?_⟩
          · simp only [if_neg hrest, size_viewOf, List.length_eq_zero_iff, if_neg hne, hvs, Option.map_some]
          · have hview : mem = pre ++ w ++ (del :: [del].intercalate ps ++ post) := by simp [hmem]
            rw [List.map_cons, hchars, if_neg hne, chars_viewOf hview]

/-- on a NUL-terminated string the loop ends, and the callback gets the pieces `cut` keeps -/
theorem parseString_eq {s : List UInt8} (hmem : mem = pre ++ s ++ 0 :: post) (hs : 0 ∉ s) (del : UInt8) :
    ∃ vs, parseString mem pre.length del = some vs ∧ vs.map (chars mem) = cut (s.splitOn del) := by
  have hstart : ofPointer mem pre.length = some (viewOf pre s) := by
    rw [ofPointer, findNul_spec hmem hs (by simp [hmem]; omega)]
    rfl
  have hjoin : [del].intercalate (s.splitOn del) = s := List.intercalate_splitOn del
  rw [parseString, hstart, Option.bind_some]
  obtain ⟨hlen, hdel⟩ := pieces_spec del s
  have hfuel : (s.splitOn del).length < mem.length + 1 := by
    simp only [hmem, List.length_append, List.length_cons]
    omega
  have := parseLoop_spec (List.splitOn_ne_nil del s) hdel hfuel (hjoin.symm ▸ hmem)
  rwa [hjoin] at this

end Code

/-! ## Main results -/

/-- **The tokenizer.** `parse_string` terminates on every NUL-terminated string `s`, and the callback gets exactly the
maximal non-empty runs without the delimiter, in order, if and only if `s` is `Spaced`. -/
theorem parse_complete_iff (pre s post : List UInt8) (del : UInt8) (hs : 0 ∉ s) :
    ∃ vs, parseString (pre ++ s ++ 0 :: post) pre.length del = some vs ∧
      (vs.map (chars (pre ++ s ++ 0 :: post)) = words del s ↔ Spaced del s) := by
  obtain ⟨vs, hvs, hchars⟩ := parseString_eq (rfl : pre ++ s ++ 0 :: post = _) hs del
  exact ⟨vs, hvs, by rw [hchars, cut_eq_words_iff]⟩

theorem parse_complete_two_words :
    ∃ vs, parseString [97, 98, 32, 99, 0] 0 32 = some vs ∧
      (vs.map (chars [97, 98, 32, 99, 0]) = [[97, 98], [99]] ↔ Spaced 32 [97, 98, 32, 99]) :=
  parse_complete_iff [] [97, 98, 32, 99] [] 32 (by decide)

/-- **The trailing delimiter.** In `"First/"` the scan of `split` stops at the delimiter, which is also the last
character of the view: the third exit returns the empty view, and the word before it is lost. -/
theorem trailing_delimiter :
    parseString [70, 105, 114, 115, 116, 47, 0] 0 47 = some [] ∧
      words 47 [70, 105, 114, 115, 116, 47] = [[70, 105, 114, 115, 116]] := by
  decide

end K23Search.Text
