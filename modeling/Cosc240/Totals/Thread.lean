import Cosc240.Totals.Loop
import Cosc240.Lib.Interleaving

/-!
# One total, from threads

`thread.c` of the second assignment (thread.c:17–81). An event is one step of `main` or of one of
the threads, together with what the `pthread` function that is called in this step returns; a
schedule is any list of events. `total += value` is two steps, one that reads the total and one that
writes it. A step of a thread is not possible while it waits for the mutex, nor one of `main` while
it waits for a thread, and none is once the process has ended.

- `Thread` and `Main`: where a thread is in `thread_function`, and where `main` is.
- `State`: the memory that is shared, which is `total`, the mutex and `indexes`, and where everybody
  is. `State.exit` is `perror` and `exit`, which end the whole process.
- `nextMain`, `nextThread`, `next`: a step of `main`, of a thread, and of the program. A step that
  is not defined in C leads to `State.undefined`: a slot of `indexes` that has not been written yet,
  or a calculation or sum that does not fit an `int`.
- `run`: a run of the program, by `Interleaving.run`.

What holds of every run is in `Totals.ThreadTotal` and `Totals.ThreadProgress`.
-/

namespace Cosc240

open Lib

namespace Totals

namespace Threads

/-- Where a thread is in `thread_function`. -/
inductive Thread
  /-- Created with the argument `&indexes[slot]`. -/
  | started (slot : Nat)
  | indexed (index : Nat)
  /-- At `pthread_mutex_lock`. -/
  | calculated (value : Int)
  /-- Holds the mutex, and is to read the total. -/
  | locked (value : Int)
  /-- Has read `total`, and is to write the sum. -/
  | loaded (value total : Int)
  /-- At `pthread_mutex_unlock`. -/
  | stored
  | finished
deriving DecidableEq, Repr

/-- Where `main` is. -/
inductive Main
  | start
  /-- In the first loop. -/
  | create (i : Nat)
  /-- In the second loop. -/
  | join (i : Nat)
  /-- The process has ended. -/
  | exited (outcome : Outcome)
  /-- Some step was undefined behaviour. -/
  | undefined
deriving DecidableEq, Repr

/-- The memory that is shared, and where everybody is. -/
structure State where
  indexes : List (Option Nat)
  threads : List Thread
  /-- The thread that holds the mutex. -/
  mutex : Option Nat
  total : Int
  main : Main
deriving DecidableEq, Repr

/-- A step of `main` or of the `j`-th thread; `status` is what a `pthread` function
returns. -/
inductive Event
  | main (status : Int)
  | thread (j : Nat) (status : Int)
deriving DecidableEq, Repr

/-- Before `main`; `indexes` is uninitialised. -/
def init (values : List Int) : State :=
  { indexes := List.replicate values.length none, threads := [], mutex := none, total := 0,
    main := .start }

/-- `perror(message)` and `exit(code)`. -/
def State.exit (s : State) (code : Int) (message : String) : State :=
  { s with main := .exited ⟨code, "", [message], s.total⟩ }

/-- Undefined behaviour. -/
def State.undefined (s : State) : State :=
  { s with main := .undefined }

/-- The `j`-th thread goes on. -/
def State.setThread (s : State) (j : Nat) (thread : Thread) : State :=
  { s with threads := s.threads.set j thread }

/-- A step of `main`. -/
def nextMain (values : List Int) (s : State) (status : Int) : Option State :=
  match s.main with
  | .start =>
    if status ≠ 0 then some (s.exit 1 "mutex_lock")
    else some { s with main := .create 0 }
  | .create i =>
    if i < values.length then
      let s := { s with indexes := s.indexes.set i (some i) }
      if status ≠ 0 then some (s.exit (-1) "Error creating child thread - exiting")
      else some { s with threads := s.threads ++ [.started i], main := .create (i + 1) }
    else some { s with main := .join 0 }
  | .join i =>
    if i < values.length then
      if status ≠ 0 then some (s.exit (-2) "Error joining child thread - exiting")
      else if s.threads[i]? = some .finished then some { s with main := .join (i + 1) }
      else none
    else some { s with main := .exited (.printed s.total []) }
  | .exited _ => none
  | .undefined => none

/-- A step of the `j`-th thread. -/
def nextThread (values : List Int) (s : State) (j : Nat) (status : Int) : Option State :=
  match s.threads[j]? with
  | none => none
  | some (.started slot) =>
    match s.indexes[slot]? with
    | some (some index) => some (s.setThread j (.indexed index))
    | _ => some s.undefined
  | some (.indexed index) =>
    match values[index]?.bind calculateValue with
    | some value => some (s.setThread j (.calculated value))
    | none => some s.undefined
  | some (.calculated value) =>
    if status ≠ 0 then some (s.exit 2 "mutex_lock")
    else if s.mutex = none then some { s.setThread j (.locked value) with mutex := some j }
    else none
  | some (.locked value) => some (s.setThread j (.loaded value s.total))
  | some (.loaded value total) =>
    match CInt.add total value with
    | some total => some { s.setThread j .stored with total }
    | none => some s.undefined
  | some .stored =>
    if status ≠ 0 then some (s.exit 2 "pthread_mutex_unlock() error")
    else some { s.setThread j .finished with mutex := none }
  | some .finished => none

/-- One step. -/
def next (values : List Int) (s : State) (event : Event) : Option State :=
  match s.main, event with
  | .exited _, _ => none
  | .undefined, _ => none
  | _, .main status => nextMain values s status
  | _, .thread j status => nextThread values s j status

/-- A run of the program. -/
def run (values : List Int) (events : List Event) : Option State :=
  Interleaving.run (next values) (init values) events

/-- Every thread has been created, and has finished. -/
def State.AllFinished (s : State) (n : Nat) : Prop :=
  s.threads.length = n ∧ ∀ thread ∈ s.threads, thread = .finished

end Threads

end Totals

end Cosc240
