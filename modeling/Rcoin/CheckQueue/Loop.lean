/-
  `CCheckQueue`: one master thread adds checks and then joins the workers until
  all are done.  A step is one critical section of one thread; what a thread
  does between two of its critical sections (evaluate its batch) touches nothing
  the others see.  A thread that waits on a condition may wake at any time,
  notified or not.

  `nTodo`, `nIdle` and `nTotal` count things that are in memory (see `Accounts`),
  so they are natural numbers here.
-/
import Mathlib

namespace Rcoin

/-- Where a thread stands with respect to `Loop`. -/
inductive LoopState (T : Type*) where
  /-- Not in `Loop`: a worker before it started, the master between two calls. -/
  | outside
  /-- After a critical section that took a batch; `fOk` is the value it started with. -/
  | working (vChecks : List T) (fOk : Bool)
  /-- In `cond.wait(lock)`. -/
  | waiting (notified : Bool)
  deriving DecidableEq

/-- The shared state and the threads: the workers `W` and the master, `none`. -/
structure CCheckQueue (W T : Type*) where
  /-- From `queue.back()` on. -/
  queue : List T := []
  nIdle : Nat := 0
  nTotal : Nat := 0
  fAllOk : Bool := true
  nTodo : Nat := 0
  nBatchSize : Nat
  threads : Option W → LoopState T := fun _ => .outside

/-- What a critical section did. -/
inductive QueueEvent (W T : Type*) where
  | added (vChecks : List T)
  | took (thread : Option W) (vChecks : List T)
  | slept (thread : Option W)
  | returned (fRet : Bool)

namespace CCheckQueue

variable {W T : Type*} [DecidableEq W]

def setThread (q : CCheckQueue W T) (t : Option W) (x : LoopState T) : CCheckQueue W T :=
  { q with threads := Function.update q.threads t x }

/-- Set the mark of a thread that waits. -/
def notify (q : CCheckQueue W T) (t : Option W) : CCheckQueue W T :=
  match q.threads t with
  | .waiting _ => q.setThread t (.waiting true)
  | _ => q

/-- How many units to process now. -/
def nNow (q : CCheckQueue W T) : Nat :=
  max 1 (min q.nBatchSize (q.queue.length / (q.nTotal + q.nIdle + 1)))

/-- The inner loop, up to where the lock is released. -/
def takeOrWait (q : CCheckQueue W T) (t : Option W) : CCheckQueue W T × QueueEvent W T :=
  if q.queue.isEmpty then
    if t = none ∧ q.nTodo = 0 then
      ({ q with nTotal := q.nTotal - 1, fAllOk := true }.setThread t .outside, .returned q.fAllOk)
    else ({ q with nIdle := q.nIdle + 1 }.setThread t (.waiting false), .slept t)
  else
    let vChecks := q.queue.take q.nNow
    ({ q with queue := q.queue.drop q.nNow }.setThread t (.working vChecks q.fAllOk),
      .took t vChecks)

/-- `for (T& check : vChecks) if (fOk) fOk = check();` -/
def runChecks (eval : T → Bool) (fOk : Bool) (vChecks : List T) : Bool :=
  vChecks.foldl (fun fOk check => if fOk then eval check else fOk) fOk

/-- The clean-up of the previous loop run; `nNow` is the number of checks of the
    batch, zero in the first iteration. -/
def cleanUp (eval : T → Bool) (q : CCheckQueue W T) (t : Option W) (vChecks : List T)
    (fOk : Bool) : CCheckQueue W T :=
  if vChecks.length ≠ 0 then
    let q' := { q with
      fAllOk := q.fAllOk && runChecks eval fOk vChecks
      nTodo := q.nTodo - vChecks.length }
    if q'.nTodo = 0 ∧ t ≠ none then q'.notify none else q'
  else { q with nTotal := q.nTotal + 1 }

/-- A thread outside its critical sections enters the next one, if it is not
    waiting. -/
def enter (eval : T → Bool) (q : CCheckQueue W T) (t : Option W) :
    Option (CCheckQueue W T × QueueEvent W T) :=
  match q.threads t with
  | .outside => some ((q.cleanUp eval t [] true).takeOrWait t)
  | .working vChecks fOk => some ((q.cleanUp eval t vChecks fOk).takeOrWait t)
  | .waiting _ => none

/-- A thread returns from `cond.wait(lock)`. -/
def wake (q : CCheckQueue W T) (t : Option W) : Option (CCheckQueue W T × QueueEvent W T) :=
  match q.threads t with
  | .waiting _ => some ({ q with nIdle := q.nIdle - 1 }.takeOrWait t)
  | _ => none

/-- The master adds checks between two calls of `Wait`.  `notify_one` wakes the
    waiting worker `woken`, if any. -/
def add (q : CCheckQueue W T) (vChecks : List T) (woken : Option W) :
    Option (CCheckQueue W T × QueueEvent W T) :=
  match q.threads none with
  | .outside =>
    let q' := { q with queue := vChecks.reverse ++ q.queue, nTodo := q.nTodo + vChecks.length }
    let q'' :=
      if vChecks.length = 1 then
        match woken with
        | some w => q'.notify (some w)
        | none => q'
      else if 1 < vChecks.length then
        { q' with threads := fun t =>
            match t, q'.threads t with
            | some _, .waiting _ => .waiting true
            | _, x => x }
      else q'
    some (q'', .added vChecks)
  | _ => none

end CCheckQueue

/-! ## Runs -/

/-- Which thread does its next critical section.  For the master, `enter` outside
    of `Loop` is the call of `Wait`; for a worker it is its start. -/
inductive QueueAction (W T : Type*) where
  | add (vChecks : List T) (woken : Option W)
  | enter (thread : Option W)
  | wake (thread : Option W)

namespace CCheckQueue

variable {W T : Type*} [DecidableEq W]

/-- One step, if the thread can do it. -/
def step (eval : T → Bool) (q : CCheckQueue W T) :
    QueueAction W T → Option (CCheckQueue W T × QueueEvent W T)
  | .add vChecks woken => q.add vChecks woken
  | .enter t => q.enter eval t
  | .wake t => q.wake t

/-- Steps in the order of the schedule, and what they did. -/
def run (eval : T → Bool) (q : CCheckQueue W T) :
    List (QueueAction W T) → Option (CCheckQueue W T × List (QueueEvent W T))
  | [] => some (q, [])
  | a :: as => do
    let (q', e) ← q.step eval a
    let (q'', es) ← q'.run eval as
    some (q'', e :: es)

end CCheckQueue

namespace QueueEvent

variable {W T : Type*}

/-- The checks added by a history. -/
def allAdded : List (QueueEvent W T) → List T
  | [] => []
  | .added vChecks :: es => vChecks ++ allAdded es
  | _ :: es => allAdded es

/-- The checks taken, each with the thread that took it. -/
def allTaken : List (QueueEvent W T) → List (Option W × T)
  | [] => []
  | .took t vChecks :: es => vChecks.map (t, ·) ++ allTaken es
  | _ :: es => allTaken es

/-- The checks added since the last return of `Wait`. -/
def addedSinceWait (es : List (QueueEvent W T)) : List T :=
  es.foldl (fun l e =>
    match e with
    | .added vChecks => l ++ vChecks
    | .returned _ => []
    | _ => l) []

end QueueEvent

end Rcoin
