import Cosc240.Schedulers.Fcfs
import Cosc240.Schedulers.Mlfq
import Cosc240.Schedulers.CustomRefines

/-!
# The five schedulers

`Algorithm` names the five `scheduler.c` files of submissions/submission, so that a result about
each of them can be stated once: `fcfs.c`, `rr.c`, `constant.c`, `exponential.c` and `custom.c`. The
`fcfs.c` of the solution (algorithms/fcfs.c) is the same file.

- `Algorithm.scheduler`: the state machine in each file. Only `custom.c` computes with `double`s,
  and so only it depends on the arithmetic `D`.
- `Algorithm.contents`: the nodes in the lists of a scheduler, and the one behind its `current`
  pointer where it has one.
- `Algorithm.books`: each of them keeps its books, in the sense of `Books`. For `fcfs.c`, `rr.c` and
  the two feedback queues the proof is beside the definition; for `custom.c` it is the subject of
  `Schedulers.CustomRefines`.
- `Algorithm.books_contents`: the nodes in the books are the contents.
-/

namespace Cosc240

/-- The files `fcfs.c`, `rr.c`, `constant.c`, `exponential.c` and `custom.c`. -/
inductive Algorithm where
  | fcfs
  | rr
  | constant
  | exponential
  | custom
  deriving DecidableEq, Repr

namespace Algorithm

variable (D : Type) [DoubleArith D]

/-- The scheduler in each file. Only `custom.c` uses `D`. -/
def scheduler : Algorithm → Scheduler
  | fcfs => Fcfs.scheduler
  | rr => Rr.scheduler
  | constant => Constant.scheduler
  | exponential => Exponential.scheduler
  | custom => Custom.scheduler D

/-- Each of them keeps its books. -/
def books : (a : Algorithm) → Books (a.scheduler D)
  | fcfs => Fcfs.books
  | rr => Rr.books
  | constant => Mlfq.books Constant.sliceLength
  | exponential => Mlfq.books Exponential.sliceLength
  | custom => Custom.books D

/-- The nodes in the lists of a scheduler, and the one behind its `current`
pointer where it has one. -/
def contents : (a : Algorithm) → (a.scheduler D).State → List Job
  | fcfs => fun processList => processList
  | rr => fun processList => List.map QuantumProcess.toJob processList
  | constant => fun s => (Mlfq.State.nodes s).map fun p => p.toJob
  | exponential => fun s => (Mlfq.State.nodes s).map fun p => p.toJob
  | custom => fun s => (Custom.State.nodes s).map fun p => p.toJob

theorem books_contents (a : Algorithm) : (a.books D).contents = a.contents D := by
  cases a <;> rfl

end Algorithm

end Cosc240
