/-
What the calls made so far ask for, read off the list of actions: the queries started and not ended, the documents, the
matching relation of `core.h`. Nothing here looks at the engine's state.

- `activeAfter`, `activeAt`: the active queries after the calls, and at the call of `MatchDocument` for a document;
- `Asked.Matches`: a query matches a document;
- `Valid`: calls as `core.h` promises them, with texts of which the tokenizer loses no word;
- `tokens_valid`, `validText_intercalate`: it delivers the words of such a text, and words with single spaces between
  them are one.
-/
import K23Search.Core.Engine

namespace K23Search.Core

open K23Search.Lib K23Search.Text

/-! ## Matching -/

/-- word `w` of a document matches word `u` of a query -/
def WordMatch (matchType : MatchType) (dist : ℕ) (u w : Word) : Prop :=
  match matchType with
  | .exactMatch => u = w
  | .hammingDist => u.length = w.length ∧ mismatches u w ≤ dist
  | .editDist => lev u w ≤ dist

instance (t : MatchType) (dist : ℕ) (u w : Word) : Decidable (WordMatch t dist u w) := by
  cases t <;> unfold WordMatch <;> infer_instance

/-- a query as it was asked -/
structure Asked where
  id : ℕ
  matchType : MatchType
  matchDist : ℕ
  words : List Word
deriving DecidableEq, Repr

/-- each word of the query has a word in the document that matches it -/
def Asked.Matches (q : Asked) (doc : List Word) : Prop :=
  ∀ u ∈ q.words, ∃ w ∈ doc, WordMatch q.matchType q.matchDist u w

instance (q : Asked) (doc : List Word) : Decidable (q.Matches doc) := inferInstanceAs (Decidable (∀ u ∈ q.words, _))

/-! ## The calls of a run -/

section Calls

variable {n : ℕ}

def Act.asked : Act n → Option Asked
  | .startQuery id str (some t) k => some ⟨id, t, k, words 32 str⟩
  | _ => none

def Act.startId : Act n → Option ℕ
  | .startQuery id _ _ _ => some id
  | _ => none

def Act.endId : Act n → Option ℕ
  | .endQuery id => some id
  | _ => none

def Act.document : Act n → Option (ℕ × List Word)
  | .matchDocument docId docStr => some (docId, words 32 docStr)
  | _ => none

/-- the queries started, in order -/
def started (as : List (Act n)) : List Asked := as.filterMap Act.asked

def startIds (as : List (Act n)) : List ℕ := as.filterMap Act.startId

def endIds (as : List (Act n)) : List ℕ := as.filterMap Act.endId

/-- the documents, with their words -/
def documents (as : List (Act n)) : List (ℕ × List Word) := as.filterMap Act.document

/-- one call more -/
def activeStep (active : List Asked) (a : Act n) : List Asked :=
  match a.asked, a.endId with
  | some q, _ => active ++ [q]
  | none, some id => active.filter fun q => q.id ≠ id
  | none, none => active

/-- the queries started and not ended -/
def activeAfter (as : List (Act n)) : List Asked := as.foldl activeStep []

/-- the calls before `MatchDocument(d, …)` -/
def before (as : List (Act n)) (d : ℕ) : List (Act n) :=
  as.takeWhile fun a => decide (a.document.map Prod.fst ≠ some d)

/-- the queries active when `MatchDocument(d, …)` was called -/
def activeAt (as : List (Act n)) (d : ℕ) : List Asked := activeAfter (before as d)

theorem started_snoc (as : List (Act n)) (a : Act n) : started (as ++ [a]) = started as ++ a.asked.toList := by
  rw [started, List.filterMap_append, started]
  cases h : a.asked <;> simp [h]

theorem startIds_snoc (as : List (Act n)) (a : Act n) : startIds (as ++ [a]) = startIds as ++ a.startId.toList := by
  rw [startIds, List.filterMap_append, startIds]
  cases h : a.startId <;> simp [h]

theorem endIds_snoc (as : List (Act n)) (a : Act n) : endIds (as ++ [a]) = endIds as ++ a.endId.toList := by
  rw [endIds, List.filterMap_append, endIds]
  cases h : a.endId <;> simp [h]

theorem documents_snoc (as : List (Act n)) (a : Act n) : documents (as ++ [a]) = documents as ++ a.document.toList := by
  rw [documents, List.filterMap_append, documents]
  cases h : a.document <;> simp [h]

theorem activeAfter_snoc (as : List (Act n)) (a : Act n) : activeAfter (as ++ [a]) = activeStep (activeAfter as) a := by
  rw [activeAfter, List.foldl_append, List.foldl_cons, List.foldl_nil, activeAfter]

/-- a call before which a document was submitted does not change what was before it -/
theorem before_snoc {as : List (Act n)} {d : ℕ} (hd : d ∈ (documents as).map Prod.fst) (a : Act n) :
    before (as ++ [a]) d = before as d := by
  obtain ⟨⟨d', ws⟩, hmem, rfl⟩ := List.mem_map.1 hd
  obtain ⟨b, hb, hdoc⟩ := List.mem_filterMap.1 hmem
  unfold before
  induction as with
  | nil => cases hb
  | cons c as ih =>
    rw [List.cons_append, List.takeWhile_cons, List.takeWhile_cons]
    by_cases hc : c.document.map Prod.fst = some d'
    · simp [hc]
    · rcases List.mem_cons.1 hb with rfl | hb'
      · rw [hdoc] at hc
        exact absurd rfl hc
      · have hmem' : (d', ws) ∈ documents as := List.mem_filterMap.2 ⟨b, hb', hdoc⟩
        simp only [ne_eq, hc, not_false_eq_true, decide_true, if_true, List.cons.injEq, true_and]
        exact ih hmem' (List.mem_map_of_mem hmem') hb'

/-- what was before the call of `MatchDocument` -/
theorem before_call {as : List (Act n)} {d : ℕ} (hd : d ∉ (documents as).map Prod.fst) {a : Act n} {ws : List Word}
    (ha : a.document = some (d, ws)) (bs : List (Act n)) : before (as ++ a :: bs) d = as := by
  unfold before
  rw [List.takeWhile_append_of_pos, List.takeWhile_cons]
  · simp [ha]
  · intro b hb
    rw [decide_eq_true_eq]
    intro hdoc
    obtain ⟨e, he, rfl⟩ := Option.map_eq_some_iff.1 hdoc
    exact hd (List.mem_map_of_mem (List.mem_filterMap.2 ⟨b, hb, he⟩))

/-! ## Valid calls -/

/-- a C string of words of the lengths of `core.h` -/
structure Text (s : List UInt8) : Prop where
  nul : 0 ∉ s
  lengths : ∀ w ∈ words 32 s, minWordLength ≤ w.length ∧ w.length ≤ maxWordLength

/-- one with a word, and with the spaces where the tokenizer loses no word -/
structure ValidText (s : List UInt8) : Prop extends Text s where
  spaced : Spaced 32 s
  nonempty : words 32 s ≠ []

/-- the texts are as `core.h` promises them -/
def Act.HasText : Act n → Prop
  | .startQuery _ str _ _ => Text str
  | .matchDocument _ docStr => Text docStr
  | _ => True

instance (s : List UInt8) : Decidable (Text s) :=
  decidable_of_iff (0 ∉ s ∧ ∀ w ∈ words 32 s, minWordLength ≤ w.length ∧ w.length ≤ maxWordLength)
    ⟨fun h => ⟨h.1, h.2⟩, fun h => ⟨h.nul, h.lengths⟩⟩

instance : (a : Act n) → Decidable a.HasText
  | .startQuery _ str _ _ => inferInstanceAs (Decidable (Text str))
  | .matchDocument _ docStr => inferInstanceAs (Decidable (Text docStr))
  | .endQuery _ | .getNextAvailRes | .client _ | .start _ | .work _ _ | .finish _ | .startTask _ _ | .task _ _
  | .finishTask _ _ | .spurious _ => inferInstanceAs (Decidable True)

def Act.Valid : Act n → Prop
  | .startQuery _ str t dist => ValidText str ∧ t.isSome ∧ dist ≤ 3
  | .matchDocument _ docStr => ValidText docStr
  | _ => True

/-- no id is started or ended twice -/
structure DistinctCalls (as : List (Act n)) : Prop where
  starts : (startIds as).Nodup
  ends : (endIds as).Nodup

/-- calls as `core.h` promises them: no id is started, ended or submitted twice -/
structure Valid (as : List (Act n)) : Prop extends DistinctCalls as where
  acts : ∀ a ∈ as, a.Valid
  docs : ((documents as).map Prod.fst).Nodup

variable {as : List (Act n)} {a : Act n}

theorem DistinctCalls.init (h : DistinctCalls (as ++ [a])) : DistinctCalls as where
  starts := (List.nodup_append.1 (startIds_snoc as a ▸ h.starts)).1
  ends := (List.nodup_append.1 (endIds_snoc as a ▸ h.ends)).1

theorem DistinctCalls.new_start (h : DistinctCalls (as ++ [a])) {id : ℕ} (ha : a.startId = some id) :
    id ∉ startIds as := by
  intro hid
  have hd := h.starts
  rw [startIds_snoc, ha, List.nodup_append] at hd
  exact hd.2.2 id hid id (by simp) rfl

theorem DistinctCalls.new_end (h : DistinctCalls (as ++ [a])) {id : ℕ} (ha : a.endId = some id) :
    id ∉ endIds as := by
  intro hid
  have hd := h.ends
  rw [endIds_snoc, ha, List.nodup_append] at hd
  exact hd.2.2 id hid id (by simp) rfl

theorem Valid.init (h : Valid (as ++ [a])) : Valid as where
  toDistinctCalls := h.toDistinctCalls.init
  acts b hb := h.acts b (List.mem_append_left _ hb)
  docs := by
    have hd := h.docs
    rw [documents_snoc, List.map_append, List.nodup_append] at hd
    exact hd.1

theorem Valid.text (h : Valid as) : ∀ a ∈ as, a.HasText := by
  intro a ha
  have hv := h.acts a ha
  cases a with
  | startQuery id str t dist => exact hv.1.toText
  | matchDocument d str => exact hv.toText
  | _ => trivial

theorem Valid.new_document (h : Valid (as ++ [a])) {d : ℕ} {ws : List Word}
    (ha : a.document = some (d, ws)) : d ∉ (documents as).map Prod.fst := by
  intro hid
  have hd := h.docs
  rw [documents_snoc, List.map_append, ha, List.nodup_append] at hd
  exact hd.2.2 d hid d (by simp) rfl

theorem asked_startId {q : Asked} (h : a.asked = some q) : a.startId = some q.id := by
  unfold Act.asked at h
  split at h
  · cases h
    rfl
  · cases h

theorem started_ids {q : Asked} (h : q ∈ started as) : q.id ∈ startIds as := by
  obtain ⟨a, ha, hq⟩ := List.mem_filterMap.1 h
  exact List.mem_filterMap.2 ⟨a, ha, asked_startId hq⟩

/-- an active query has been started -/
theorem activeAfter_sublist (as : List (Act n)) : (activeAfter as).Sublist (started as) := by
  induction as using List.reverseRecOn with
  | nil => exact List.Sublist.refl _
  | append_singleton as a ih =>
    rw [activeAfter_snoc, activeStep, started_snoc]
    split
    · next hq =>
      rw [hq]
      exact ih.append_right _
    · exact List.filter_sublist.trans (ih.trans (List.sublist_append_left _ _))
    · exact ih.trans (List.sublist_append_left _ _)

/-- a query that has been started is active, or an `EndQuery` with its id has been called -/
theorem active_or_ended {q : Asked} (h : q ∈ started as) :
    q ∈ activeAfter as ∨ q.id ∈ endIds as := by
  induction as using List.reverseRecOn with
  | nil => cases h
  | append_singleton as a ih =>
    rw [started_snoc, List.mem_append] at h
    rw [activeAfter_snoc, activeStep, endIds_snoc, List.mem_append]
    split
    · next q' hq =>
      rw [hq] at h
      rcases h with h | h
      · exact (ih h).imp (List.mem_append_left _) .inl
      · exact .inl (List.mem_append_right _ (by simpa using h))
    · next id hnone hid =>
      rw [hnone] at h
      have h : q ∈ started as := by simpa using h
      rw [hid]
      by_cases heq : q.id = id
      · exact .inr (.inr (by simp [heq]))
      · rcases ih h with h | h
        · exact .inl (List.mem_filter.2 ⟨h, by simpa using heq⟩)
        · exact .inr (.inl h)
    · next hnone hid =>
      rw [hnone] at h
      exact (ih (by simpa using h)).imp id .inl

/-- a type is one of the three -/
def Act.Typed : Act n → Prop
  | .startQuery _ _ t _ => t.isSome
  | _ => True

/-- only a query that has been started is ended -/
def EndsStarted (as : List (Act n)) : Prop :=
  ∀ pre id post, as = pre ++ .endQuery id :: post → id ∈ startIds pre

theorem EndsStarted.init {a : Act n} (h : EndsStarted (as ++ [a])) : EndsStarted as :=
  fun pre id post heq => h pre id (post ++ [a]) (by rw [heq]; simp)

theorem EndsStarted.last {id : ℕ} (h : EndsStarted (as ++ [.endQuery id])) : id ∈ startIds as := h as id [] rfl

theorem started_ids_sublist (as : List (Act n)) : ((started as).map Asked.id).Sublist (startIds as) := by
  induction as using List.reverseRecOn with
  | nil => exact List.Sublist.refl _
  | append_singleton as a ih =>
    rw [started_snoc, startIds_snoc, List.map_append]
    refine ih.append ?_
    cases ha : a.asked with
    | none => exact List.nil_sublist _
    | some q =>
      rw [asked_startId ha]
      exact List.Sublist.refl _

theorem DistinctCalls.active_nodup (h : DistinctCalls as) : ((activeAfter as).map Asked.id).Nodup :=
  h.starts.sublist (((activeAfter_sublist as).map _).trans (started_ids_sublist as))

/-- ending an active query leaves one less -/
theorem length_filter_ne {qs : List Asked} {id : ℕ} (hnd : (qs.map Asked.id).Nodup) (hid : id ∈ qs.map Asked.id) :
    (qs.filter fun q => q.id ≠ id).length + 1 = qs.length := by
  have hmap : (qs.filter fun q => q.id ≠ id).map Asked.id = (qs.map Asked.id).erase id := by
    rw [hnd.erase_eq_filter, List.filter_map]
    exact congrArg _ (List.filter_congr fun q _ => by by_cases hq : q.id = id <;> simp [hq])
  have hlen := congrArg List.length hmap
  rw [List.length_map, List.length_erase_of_mem hid, List.length_map] at hlen
  have hpos : 0 < (qs.map Asked.id).length := List.length_pos_of_mem hid
  rw [List.length_map] at hpos
  omega

theorem nul_intercalate {ws : List Word} (hws : ∀ w ∈ ws, 0 ∉ w) : (0 : UInt8) ∉ [32].intercalate ws := by
  induction ws with
  | nil => simp [List.intercalate]
  | cons w ws ih =>
    have ih := ih fun w' hw' => hws w' (List.mem_cons_of_mem _ hw')
    have hw := hws w List.mem_cons_self
    cases ws with
    | nil => simpa [List.intercalate] using hw
    | cons w' ws => simpa [List.intercalate] using And.intro hw (by simpa [List.intercalate] using ih)

theorem tokens_eq {s : List UInt8} (h : 0 ∉ s) : tokens s = some (cut (s.splitOn 32)) := by
  have hmem : s ++ [0] = [] ++ s ++ 0 :: [] := rfl
  obtain ⟨views, hviews, hchars⟩ := parseString_eq hmem h 32
  have hparse : parseString (s ++ [0]) 0 32 = some views := hviews
  rw [tokens, hparse, Option.map_some, hchars]

/-- the tokenizer delivers words of the text -/
theorem tokens_subset {s : List UInt8} (h : 0 ∉ s) {ws : List Word} (hws : tokens s = some ws) : ws ⊆ words 32 s := by
  rw [tokens_eq h] at hws
  cases hws
  intro w hw
  obtain ⟨hmem, hne⟩ := cut_subset hw
  exact List.mem_filter.2 ⟨hmem, by simpa using hne⟩

/-- it delivers all words of a valid text -/
theorem tokens_valid {s : List UInt8} (h : ValidText s) : tokens s = some (words 32 s) := by
  rw [tokens_eq h.nul, (cut_eq_words_iff 32 s).2 h.spaced]

/-- words with single spaces between them -/
theorem validText_intercalate {ws : List Word} (hne : ws ≠ [])
    (hws : ∀ w ∈ ws, minWordLength ≤ w.length ∧ w.length ≤ maxWordLength ∧ 32 ∉ w ∧ 0 ∉ w) :
    ValidText ([32].intercalate ws) ∧ words 32 ([32].intercalate ws) = ws := by
  have hsplit := List.splitOn_intercalate 32 (fun w hw => (hws w hw).2.2.1) hne
  have hpos : ∀ w ∈ ws, w ≠ [] := by
    intro w hw heq
    have := (hws w hw).1
    rw [heq] at this
    exact absurd this (by decide)
  have hwords : words 32 ([32].intercalate ws) = ws := by
    rw [words, hsplit]
    exact List.filter_eq_self.2 fun w hw => by simpa using hpos w hw
  refine ⟨⟨⟨nul_intercalate fun w hw => (hws w hw).2.2.2, fun w hw => ?_⟩,
    ⟨ws, 0, hpos, by simp [hsplit], .inr (by simp)⟩, by rwa [hwords]⟩, hwords⟩
  rw [hwords] at hw
  exact ⟨(hws w hw).1, (hws w hw).2.1⟩

end Calls

end K23Search.Core
