/-
Calls that may throw.

- `Outcome`: a call with the state it leaves;
- `Outcome.state`: the state of a caller that catches the exception.
-/

namespace K23Search

/-- a call returns or throws, and leaves a state, or it is undefined -/
inductive Outcome (S : Type) where
  | returns (s : S)
  | throws (s : S)
  | undefined
deriving DecidableEq, Repr

def Outcome.bind {S : Type} (o : Outcome S) (f : S → Outcome S) : Outcome S :=
  match o with
  | .returns s => f s
  | .throws s => .throws s
  | .undefined => .undefined

/-- a call that does not throw -/
def Outcome.ofOption {S : Type} : Option S → Outcome S
  | some s => .returns s
  | none => .undefined

def Outcome.state {S : Type} : Outcome S → Option S
  | .returns s => some s
  | .throws s => some s
  | .undefined => none

end K23Search
