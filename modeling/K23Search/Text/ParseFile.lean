/-
`parse_file` (parser.hpp): the records of a stream, read with `getdelim`.

`getdelim` is modelled as POSIX specifies it: it stores the bytes up to the delimiter, with it, and a NUL into the line
buffer, whose size is at least that; what the buffer holds behind is arbitrary. The delimiter is an `int` and must be an
`unsigned char`, while `parse_file` passes a `char`, which is signed. Errors and records of more than `SSIZE_MAX` bytes
are left out.

The loop measures the line with `strlen`, so that a NUL byte ends it, and looks at `line[length - 1]`.

Results:
- `lineEntry_iff`: which records the body of the loop makes of their lines;
- `delivers_iff`: which streams are delivered record by record.
-/
import K23Search.Lib.Delimited
import K23Search.Text.StringView
import K23Search.Text.Strings
import Mathlib.Data.List.Chain
import Mathlib.Data.List.TakeWhile

namespace K23Search.Text

open K23Search.Lib

/-! ## Model -/

/-- the promotion of a `char` -/
def intOfChar (c : UInt8) : ℤ := if c < 128 then c.toNat else (c.toNat : ℤ) - 256

/-- `getdelim(&line, &allocation_length, delimiter, stream)` on what is left of the stream: the line buffer, with `junk`
behind the NUL, and what is left then; at the end of the stream −1. The inner `none` is the −1. -/
def getdelim (junk : List UInt8) (delimiter : ℤ) (stream : List UInt8) : Option (Option (List UInt8 × List UInt8)) :=
  if delimiter < 0 ∨ 255 < delimiter then none
  else if stream = [] then some none
  else
    let other := fun b : UInt8 => decide ((b.toNat : ℤ) ≠ delimiter)
    let tail := stream.dropWhile other
    some (some (stream.takeWhile other ++ tail.take 1 ++ 0 :: junk, tail.drop 1))

/-- the body of the loop: the string that is passed to `f` -/
def lineEntry (line : List UInt8) (del : UInt8) : Option QsString :=
  (strlen line).bind fun length => (read line ((length : ℤ) - 1)).bind fun last =>
    QsString.ofBytes line (if last = del then length - 1 else length)

/-- the loop of `parse_file`: the strings passed to `f`, in order. `junk`: behind the line, in each round -/
def parseFileLoop (del : UInt8) : ℕ → (ℕ → List UInt8) → List UInt8 → Option (List QsString)
  | 0, _, _ => none
  | fuel + 1, junk, stream =>
    (getdelim (junk 0) (intOfChar del) stream).bind fun
      | none => some []
      | some r =>
        (lineEntry r.1 del).bind fun entry =>
          (parseFileLoop del fuel (fun n => junk (n + 1)) r.2).map (entry :: ·)

def parseFile (junk : ℕ → List UInt8) (stream : List UInt8) (del : UInt8) : Option (List QsString) :=
  parseFileLoop del (stream.length + 1) junk stream

/-- every access is inside the line buffer, and `f` is called with each record, in order -/
def Delivers (junk : ℕ → List UInt8) (stream : List UInt8) (del : UInt8) : Prop :=
  (parseFile junk stream del).map (List.map QsString.contents) = some (records del stream)

/-! ## `getdelim` -/

variable {del : UInt8} {r : List UInt8}

theorem getdelim_signed (junk stream : List UInt8) (h : ¬del < 128) : getdelim junk (intOfChar del) stream = none := by
  have hlt := del.toNat_lt
  rw [getdelim, intOfChar, if_neg h, if_pos (.inl (by omega))]

theorem intOfChar_inRange (h : del < 128) :
    intOfChar del = del.toNat ∧ ¬((del.toNat : ℤ) < 0 ∨ 255 < (del.toNat : ℤ)) := by
  have hlt := del.toNat_lt
  exact ⟨if_pos h, by omega⟩

theorem getdelim_nil (junk : List UInt8) (h : del < 128) : getdelim junk (intOfChar del) [] = some none := by
  obtain ⟨hint, hrange⟩ := intOfChar_inRange h
  rw [getdelim, hint, if_neg hrange, if_pos rfl]

/-- none of the bytes is taken for the delimiter -/
theorem other_of_not_mem (hr : del ∉ r) : ∀ b ∈ r, decide ((b.toNat : ℤ) ≠ del.toNat) = true := by
  intro b hb
  apply decide_eq_true
  intro h
  have hbd : b = del := UInt8.toNat_inj.1 (Int.ofNat.inj h)
  exact hr (hbd ▸ hb)

theorem getdelim_last (junk : List UInt8) (h : del < 128) (hr : del ∉ r) (hne : r ≠ []) :
    getdelim junk (intOfChar del) r = some (some (r ++ 0 :: junk, [])) := by
  obtain ⟨hint, hrange⟩ := intOfChar_inRange h
  have hall := other_of_not_mem hr
  rw [getdelim, hint, if_neg hrange, if_neg hne]
  simp only [List.takeWhile_eq_self_iff.2 hall, List.dropWhile_eq_nil_iff.2 hall, List.take_nil, List.drop_nil,
    List.append_nil]

theorem getdelim_append (junk rest : List UInt8) (h : del < 128) (hr : del ∉ r) :
    getdelim junk (intOfChar del) (r ++ del :: rest) = some (some (r ++ [del] ++ 0 :: junk, rest)) := by
  obtain ⟨hint, hrange⟩ := intOfChar_inRange h
  have hall := other_of_not_mem hr
  rw [getdelim, hint, if_neg hrange, if_neg (by simp)]
  simp only [List.takeWhile_append_of_pos hall, List.dropWhile_append_of_pos hall]
  simp

/-! ## One line -/

theorem strlen_nul {w : List UInt8} (rest : List UInt8) (hw : 0 ∉ w) : strlen (w ++ 0 :: rest) = some w.length := by
  have hnone : w.findIdx? (· = 0) = none := by
    rw [List.findIdx?_eq_none_iff]
    intro b hb
    exact decide_eq_false fun h => hw (h ▸ hb)
  rw [strlen, List.findIdx?_append, hnone, List.findIdx?_cons, if_pos (decide_eq_true rfl)]
  simp

theorem ofBytes_contents (w rest : List UInt8) :
    (QsString.ofBytes (w ++ rest) w.length).map QsString.contents = some w := by
  have hle : w.length ≤ (w ++ rest).length := by
    rw [List.length_append]
    omega
  rw [QsString.ofBytes, dif_pos hle, Option.map_some, Option.some.injEq, QsString.contents, QsString.data]
  simp

theorem lineEntry_concat {v : List UInt8} {x : UInt8} (rest : List UInt8) (del : UInt8) (hw : 0 ∉ v ++ [x]) :
    (lineEntry (v ++ [x] ++ 0 :: rest) del).map QsString.contents = some (if x = del then v else v ++ [x]) := by
  have hlen : (v ++ [x]).length = v.length + 1 := List.length_append
  have hlast : read (v ++ [x] ++ 0 :: rest) (((v ++ [x]).length : ℤ) - 1) = some x := by
    have hpos : ((v ++ [x]).length : ℤ) - 1 = v.length := by omega
    calc
      read (v ++ [x] ++ 0 :: rest) (((v ++ [x]).length : ℤ) - 1) = read (v ++ x :: 0 :: rest) v.length := by
        rw [hpos, ← List.append_cons]
      _ = some x := read_at v (0 :: rest) x
  rw [lineEntry, strlen_nul rest hw, Option.bind_some, hlast, Option.bind_some]
  by_cases hx : x = del
  · rw [if_pos hx, if_pos hx, hlen, Nat.add_sub_cancel, List.append_assoc]
    exact ofBytes_contents v _
  · rw [if_neg hx, if_neg hx]
    exact ofBytes_contents (v ++ [x]) _

/-- a line with no delimiter before its first NUL -/
theorem lineEntry_undelimited {w : List UInt8} (rest : List UInt8) (h0 : 0 ∉ w) (hdel : del ∉ w) :
    (lineEntry (w ++ 0 :: rest) del).map QsString.contents = if w = [] then none else some w := by
  rcases List.eq_nil_or_concat' w with rfl | ⟨v, x, rfl⟩
  · rw [if_pos rfl]
    rfl
  · have hx : x ≠ del := fun hx => hdel (hx ▸ List.mem_append_right v (List.mem_singleton_self x))
    rw [lineEntry_concat rest del h0, if_neg (List.concat_ne_nil x v), if_neg hx]

/-- with the NUL as the delimiter, the first NUL is the delimiter or the one behind the line -/
theorem lineEntry_nul_iff {line : List UInt8} (junk : List UInt8) (hr : 0 ∉ r)
    (hline : line = r ++ [0] ∨ line = r ∧ r ≠ []) :
    (lineEntry (line ++ 0 :: junk) 0).map QsString.contents = some r ↔ r ≠ [] := by
  have hstart : ∃ rest, line ++ 0 :: junk = r ++ 0 :: rest := by
    rcases hline with hline | hline
    · exact ⟨0 :: junk, by rw [hline, List.append_assoc]; rfl⟩
    · exact ⟨junk, by rw [hline.1]⟩
  obtain ⟨rest, hrest⟩ := hstart
  rw [hrest, lineEntry_undelimited rest hr hr]
  by_cases hempty : r = []
  · rw [if_pos hempty]
    exact iff_of_false (fun h => by cases h) (fun h => h hempty)
  · rw [if_neg hempty]
    exact iff_of_true rfl hempty

/-- with another delimiter, the line ends at the first NUL of the record -/
theorem lineEntry_cut (tail : List UInt8) (hr : del ∉ r) (h0 : 0 ∈ r) :
    (lineEntry (r ++ tail) del).map QsString.contents ≠ some r := by
  obtain ⟨as, bs, rfl, has⟩ := List.eq_append_cons_of_mem h0
  rw [List.append_assoc, List.cons_append, lineEntry_undelimited _ has fun h => hr (List.mem_append_left _ h)]
  split
  · intro h
    cases h
  · intro h
    have hlen := congrArg List.length (Option.some.inj h)
    rw [List.length_append, List.length_cons] at hlen
    omega

theorem lineEntry_whole {line : List UInt8} (junk : List UInt8) (hdel : del ≠ 0) (hr : del ∉ r) (h0 : 0 ∉ r)
    (hline : line = r ++ [del] ∨ line = r ∧ r ≠ []) :
    (lineEntry (line ++ 0 :: junk) del).map QsString.contents = some r := by
  rcases hline with hline | ⟨hline, hne⟩
  · have hnul : 0 ∉ r ++ [del] := by
      rw [List.mem_append, List.mem_singleton, not_or]
      exact ⟨h0, Ne.symm hdel⟩
    rw [hline, lineEntry_concat junk del hnul, if_pos rfl]
  · rw [hline, lineEntry_undelimited junk h0 hr, if_neg hne]

/-- a record that comes through: a NUL ends the line before its end, and an empty line has no last character -/
def Whole (del : UInt8) (r : List UInt8) : Prop := if del = 0 then r ≠ [] else 0 ∉ r

/-- the line that `getdelim` stores for a record is given to `f` as the record exactly for whole records -/
theorem lineEntry_iff {line : List UInt8} (junk : List UInt8) (hr : del ∉ r)
    (hline : line = r ++ [del] ∨ line = r ∧ r ≠ []) :
    (lineEntry (line ++ 0 :: junk) del).map QsString.contents = some r ↔ Whole del r := by
  rw [Whole]
  by_cases hdel : del = 0
  · subst hdel
    rw [if_pos rfl]
    exact lineEntry_nul_iff junk hr hline
  · rw [if_neg hdel]
    by_cases h0 : 0 ∈ r
    · refine iff_of_false ?_ (fun h => h h0)
      rcases hline with hline | hline
      · rw [hline, List.append_assoc]
        exact lineEntry_cut _ hr h0
      · rw [hline.1]
        exact lineEntry_cut _ hr h0
    · exact iff_of_true (lineEntry_whole junk hdel hr h0 hline) h0

/-! ## The loop -/

/-- what is delivered, from the first record and the rest -/
theorem cons_delivered {entry : Option QsString} {entries : Option (List QsString)} {r : List UInt8}
    {rs : List (List UInt8)} :
    (entry.bind fun e => entries.map (e :: ·)).map (List.map QsString.contents) = some (r :: rs) ↔
      entry.map QsString.contents = some r ∧ entries.map (List.map QsString.contents) = some rs := by
  cases entry with
  | none => exact iff_of_false (fun h => by cases h) (fun h => by cases h.1)
  | some e =>
    cases entries with
    | none => exact iff_of_false (fun h => by cases h) (fun h => by cases h.2)
    | some es => simp

theorem parseFileLoop_nil (h : del < 128) {fuel : ℕ} (junk : ℕ → List UInt8) (hfuel : 0 < fuel) :
    parseFileLoop del fuel junk [] = some [] := by
  cases fuel with
  | zero => exact absurd hfuel (Nat.lt_irrefl 0)
  | succ fuel => rw [parseFileLoop, getdelim_nil _ h, Option.bind_some]

/-- one round takes one record. The rounds are as many as there are records, and one more for the end. -/
theorem parseFileLoop_iff (h : del < 128) (stream : List UInt8) {fuel : ℕ} (junk : ℕ → List UInt8)
    (hfuel : stream.length < fuel) :
    (parseFileLoop del fuel junk stream).map (List.map QsString.contents) = some (records del stream) ↔
      ∀ r ∈ records del stream, Whole del r := by
  induction stream using record_induction del generalizing fuel junk with
  | nil =>
    rw [parseFileLoop_nil h junk (Nat.zero_lt_of_lt hfuel)]
    simp
  | last r hr hne =>
    obtain ⟨fuel, rfl⟩ := Nat.exists_eq_add_one_of_ne_zero (Nat.ne_of_gt (Nat.zero_lt_of_lt hfuel))
    have hpos : 0 < fuel := Nat.lt_of_lt_of_le (List.length_pos_of_ne_nil hne) (Nat.le_of_lt_succ hfuel)
    rw [parseFileLoop, getdelim_last _ h hr hne, records_last hr hne, Option.bind_some, List.forall_mem_singleton,
      ← lineEntry_iff (junk 0) hr (.inr ⟨rfl, hne⟩), cons_delivered, parseFileLoop_nil h _ hpos]
    exact and_iff_left rfl
  | append r rest hr ih =>
    obtain ⟨fuel, rfl⟩ := Nat.exists_eq_add_one_of_ne_zero (Nat.ne_of_gt (Nat.zero_lt_of_lt hfuel))
    rw [List.length_append, List.length_cons] at hfuel
    have hrest : rest.length < fuel := by omega
    rw [parseFileLoop, getdelim_append _ _ h hr, records_append rest hr, Option.bind_some, List.forall_mem_cons,
      ← ih (fun n => junk (n + 1)) hrest, ← lineEntry_iff (junk 0) hr (.inl rfl)]
    exact cons_delivered

/-! ## The streams -/

/-- no NUL is the first byte or follows another -/
def Spread (stream : List UInt8) : Prop := (0 :: stream).IsChain fun a b => a = 0 → b ≠ 0

theorem chain_nul {w : List UInt8} (hw : 0 ∉ w) : (w ++ [0]).IsChain fun a b : UInt8 => a = 0 → b ≠ 0 := by
  induction w with
  | nil => exact .singleton 0
  | cons b w ih =>
    rw [List.mem_cons, not_or] at hw
    rw [List.cons_append, List.isChain_cons]
    exact ⟨fun _ _ hb => absurd hb.symm hw.1, ih hw.2⟩

theorem spread_nul (hr : 0 ∉ r) : Spread (r ++ [0]) ↔ r ≠ [] := by
  cases r with
  | nil => exact iff_of_false (fun h => (List.isChain_cons_cons.1 h).1 rfl rfl) (fun h => h rfl)
  | cons b r =>
    have hb : b ≠ 0 := fun hb => hr (hb ▸ List.mem_cons_self)
    exact iff_of_true (List.isChain_cons_cons.2 ⟨fun _ => hb, chain_nul hr⟩) (List.cons_ne_nil b r)

theorem nonempty_records_iff (stream : List UInt8) : (∀ r ∈ records 0 stream, r ≠ []) ↔ Spread stream := by
  induction stream using record_induction (0 : UInt8) with
  | nil => exact iff_of_true (fun r hr => by cases hr) (.singleton 0)
  | last r hr hne =>
    have hspread := (spread_nul hr).2 hne
    rw [Spread, ← List.cons_append] at hspread
    rw [records_last hr hne, List.forall_mem_singleton]
    exact iff_of_true hne hspread.left_of_append
  | append r rest hr ih =>
    rw [records_append rest hr, List.forall_mem_cons, ih, ← spread_nul hr]
    exact List.isChain_cons_split.symm

theorem nul_free_records_iff (hdel : del ≠ 0) (stream : List UInt8) :
    (∀ r ∈ records del stream, 0 ∉ r) ↔ 0 ∉ stream := by
  induction stream using record_induction del with
  | nil => simp
  | last r hr hne => rw [records_last hr hne, List.forall_mem_singleton]
  | append r rest hr ih =>
    rw [records_append rest hr, List.forall_mem_cons, ih, List.mem_append, List.mem_cons, not_or, not_or,
      and_iff_right (Ne.symm hdel)]

theorem whole_records_iff (del : UInt8) (stream : List UInt8) :
    (∀ r ∈ records del stream, Whole del r) ↔ (del ≠ 0 → 0 ∉ stream) ∧ (del = 0 → Spread stream) := by
  by_cases hdel : del = 0
  · subst hdel
    rw [← nonempty_records_iff]
    simp [Whole]
  · rw [← nul_free_records_iff hdel]
    simp [Whole, hdel]

/-- **Records.** `parse_file` delivers the records of a stream exactly when the delimiter is below 128 and, unless it is
the NUL, no byte of the stream is a NUL; with the NUL as the delimiter, when no record is empty. -/
theorem delivers_iff (junk : ℕ → List UInt8) (stream : List UInt8) (del : UInt8) :
    Delivers junk stream del ↔ del < 128 ∧ (del ≠ 0 → 0 ∉ stream) ∧ (del = 0 → Spread stream) := by
  rw [Delivers, parseFile]
  by_cases h : del < 128
  · calc
      _ ↔ ∀ r ∈ records del stream, Whole del r := parseFileLoop_iff h stream junk (Nat.lt_succ_self _)
      _ ↔ (del ≠ 0 → 0 ∉ stream) ∧ (del = 0 → Spread stream) := whole_records_iff del stream
      _ ↔ _ := (and_iff_right h).symm
  · rw [parseFileLoop, getdelim_signed _ _ h]
    exact iff_of_false (fun hd => by cases hd) (fun hd => h hd.1)

/-- `"a\0b\n"` comes through as `"a"`; `"\0\n"`, and `"\0"` with the NUL as the delimiter, are read at `line[-1]` -/
theorem nul_cuts_record :
    let junk : ℕ → List UInt8 := fun _ => []
    ((parseFile junk [97, 0, 98, 10] 10).map (List.map QsString.contents) = some [[97]] ∧
      parseFile junk [0, 10] 10 = none ∧ parseFile junk [0] 0 = none) ∧
    ¬∀ stream del, Delivers junk stream del := by
  intro junk
  refine ⟨by decide, fun h => ?_⟩
  have hcut := h [97, 0, 98, 10] 10
  exact absurd hcut (by unfold Delivers; decide)

end K23Search.Text
