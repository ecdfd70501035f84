/-
`qs::optional` (include/qs/optional.hpp), and the way of an item out of a queue (include/qs/queue.hpp):
`queue::dequeue` moves it from the list node into an optional and frees the node; `concurrent_queue::dequeue` moves it
on into a temporary and from there into the optional that it returns.

Results:
- `get_moveConstruct`, `get_moveAssign`: a move hands over the value, and the source owns nothing afterwards;
- `dequeueItem_eq`: the item that arrives is the one of `DList.dequeue`.
-/
import K23Search.Containers.LinkedList

namespace K23Search

/-- the storage of an optional: no object, an object, or one whose value has been moved out -/
inductive Slot (V : Type) where
  | raw
  | live (v : V)
  | moved
deriving DecidableEq, Repr

structure Optional (V : Type) where
  value : Slot V
  hasValue : Bool
deriving DecidableEq, Repr

namespace Optional

variable {V : Type}

/-- `optional()` -/
def nothing : Optional V := ⟨.raw, false⟩

/-- `optional(T &&v)` -/
def ofValue (v : Slot V) : Optional V := ⟨v, true⟩

/-- `empty()`, and the destructor -/
def empty (o : Optional V) : Optional V := if o.hasValue then ⟨.raw, false⟩ else o

def addValueInPlace (o : Optional V) (v : Slot V) : Optional V := { o.empty with value := v, hasValue := true }

/-- `optional(optional &&other)`: the new optional, and `other` -/
def moveConstruct (other : Optional V) : Optional V × Optional V :=
  if other.hasValue then (nothing.addValueInPlace other.value, ⟨.moved, false⟩)
  else (nothing, other)

/-- `operator=(optional &&other)`: the optional assigned to, and `other` -/
def moveAssign (o other : Optional V) : Optional V × Optional V :=
  if other.hasValue then (o.addValueInPlace other.value, ⟨.moved, false⟩)
  else (o.empty, other)

def get (o : Optional V) : Option V :=
  match o.hasValue, o.value with
  | true, .live v => some v
  | _, _ => none

theorem get_moveConstruct (o : Optional V) :
    (moveConstruct o).1.get = o.get ∧ (moveConstruct o).2.hasValue = false := by
  unfold moveConstruct
  split
  · next h => exact ⟨by simp [get, addValueInPlace, h], rfl⟩
  · next h =>
    have h : o.hasValue = false := by simpa using h
    exact ⟨by simp [get, nothing, h], h⟩

theorem get_moveAssign (o other : Optional V) :
    (moveAssign o other).1.get = other.get ∧ (moveAssign o other).2.hasValue = false := by
  unfold moveAssign
  split
  · next h => exact ⟨by simp [get, addValueInPlace, h], rfl⟩
  · next h =>
    have h : other.hasValue = false := by simpa using h
    refine ⟨?_, h⟩
    cases ho : o.hasValue <;> simp [get, empty, h, ho]

end Optional

namespace DList

variable {V : Type}

/-- `queue::dequeue`: the value is moved out of the head, which is then removed -/
def dequeueOptional (q : DList V) : Optional V × DList V :=
  match q.raw.head with
  | none => (.nothing, q)
  | some head => (.ofValue ((q.get head).elim .raw .live), (q.remove head).getD q)

/-- what `concurrent_queue::dequeue` does with a queue that is not empty: the optional it returns, `*empty_out`, and the
queue -/
def dequeueItem (q : DList V) : Optional V × Bool × DList V :=
  let item := q.dequeueOptional
  let emptyOut := item.2.isEmpty
  let temporary := item.1.moveConstruct
  ((Optional.nothing.moveAssign temporary.1).1, emptyOut, item.2)

theorem dequeueOptional_eq (q : DList V) :
    q.dequeueOptional.1.get = q.dequeue.1 ∧ q.dequeueOptional.2 = q.dequeue.2 := by
  unfold dequeueOptional dequeue
  cases q.raw.head with
  | none => exact ⟨rfl, rfl⟩
  | some head =>
    refine ⟨?_, rfl⟩
    cases hv : q.get head <;> simp [hv, Optional.get, Optional.ofValue]

theorem dequeueItem_eq (q : DList V) :
    q.dequeueItem.1.get = q.dequeue.1 ∧ q.dequeueItem.2.1 = q.dequeue.2.isEmpty ∧ q.dequeueItem.2.2 = q.dequeue.2 := by
  obtain ⟨hitem, hq⟩ := dequeueOptional_eq q
  refine ⟨?_, by simp only [dequeueItem, hq], hq⟩
  simp only [dequeueItem]
  rw [(Optional.get_moveAssign _ _).1, (Optional.get_moveConstruct _).1, hitem]

end DList

end K23Search
