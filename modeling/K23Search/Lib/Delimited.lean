/-
The records of a sequence: the pieces between its delimiters, with nothing after a final one.

- `records_append`, `records_last`: the first record and the rest of the sequence;
- `record_induction`: a sequence is empty, one record without a delimiter behind it, or a record, its delimiter and a
  sequence.
-/
import Mathlib.Data.List.Basic

namespace K23Search.Lib

variable {α : Type*} [DecidableEq α] {a : α}

def records (a : α) (bytes : List α) : List (List α) :=
  let pieces := bytes.splitOn a
  if pieces.getLast? = some [] then pieces.dropLast else pieces

@[simp] theorem records_nil (a : α) : records a [] = [] := rfl

theorem records_last {r : List α} (hr : a ∉ r) (hne : r ≠ []) : records a r = [r] := by
  rw [records, List.splitOn_eq_singleton hr]
  exact if_neg (by simpa using hne)

theorem records_append {r : List α} (rest : List α) (hr : a ∉ r) :
    records a (r ++ a :: rest) = r :: records a rest := by
  rw [records, List.splitOn_append_cons_self_of_not_mem hr, records]
  obtain ⟨piece, pieces, hsplit⟩ := List.exists_cons_of_ne_nil (List.splitOn_ne_nil a rest)
  simp only [hsplit, List.getLast?_cons_cons, List.dropLast_cons_cons]
  split <;> rfl

@[elab_as_elim]
theorem record_induction (a : α) {motive : List α → Prop} (nil : motive [])
    (last : ∀ r, a ∉ r → r ≠ [] → motive r)
    (append : ∀ r rest, a ∉ r → motive rest → motive (r ++ a :: rest)) (bytes : List α) : motive bytes := by
  by_cases ha : a ∈ bytes
  · obtain ⟨r, rest, hsplit, hr⟩ := List.eq_append_cons_of_mem ha
    have hshorter : rest.length < bytes.length := by
      rw [hsplit, List.length_append, List.length_cons]
      omega
    rw [hsplit]
    exact append r rest hr (record_induction a nil last append rest)
  · by_cases hne : bytes = []
    · exact hne ▸ nil
    · exact last bytes ha hne
termination_by bytes.length

end K23Search.Lib
