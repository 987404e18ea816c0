import Congine.Common.Runs
import Congine.Common.Table
import Congine.Kernel.Models
import Mathlib.Data.Rat.Defs
/-!
# The bounded executor

A thread pool with a bound on outstanding work. A call takes a permit of a
semaphore and submits its function under one lock; the permit comes back by
a done-callback of the future, which counts the call out under the lock and
releases the semaphore after it. The caller waits for the future or for its
budget, whichever ends first.

A step is one atomic action of one thread: of a submitter inside the lock or
at the registration of the callback, of a worker, of a done-callback, of a
waiting caller, of a clock. A call made from one of the pool's own workers
runs inline and takes no permit: it is part of the function that makes it.
-/

namespace Congine

variable {V : Type}

inductive FutureState where
  | pending | running | finished | cancelled
  deriving DecidableEq

/-- `done()`. -/
def FutureState.done : FutureState → Bool
  | finished | cancelled => true
  | _ => false

/-- What a call ends in. -/
inductive Outcome (V : Type) where
  /-- What the future hands over. -/
  | delivered (result : Except Exc V)
  /-- `TimeoutError("Timeout after …ms")`. -/
  | timeoutError
  | loadShedError
  | lifecycleError
  /-- The caller was cancelled while it waited. -/
  | cancelledError
  deriving DecidableEq

/-- Where the thread of a call is. -/
inductive Stage where
  -- Inside the lock: a permit taken, counted in, counted out again by the
  -- refusal of the pool, the permit given back.
  | acquired | counted | uncounted | restored
  | refused
  /-- The pool has the function; the done-callback is not registered. -/
  | submitted
  | waiting | ended
  deriving DecidableEq

/-- A call of `run_with_timeout` or `run_with_timeout_async`. -/
structure Call (V : Type) where
  async : Bool
  timeoutMs : ℤ
  stage : Stage
  /-- None until the pool took the function. -/
  future : Option FutureState := none
  /-- A done-callback waits on the future. -/
  callback : Bool := false
  /-- Runs of `_release` that have not counted the call out. -/
  entering : ℕ := 0
  /-- Runs of `_release` that have, and have not released the semaphore. -/
  leaving : ℕ := 0
  /-- Releases of the semaphore. -/
  releases : ℕ := 0
  /-- The instant the wait began. -/
  waitFrom : ℚ := 0
  /-- What the function ended in. -/
  result : Option (Except Exc V) := none
  outcome : Option (Outcome V) := none

namespace Call

/-- The function has begun executing. -/
def began (c : Call V) : Bool := c.future = some .running || c.future = some .finished

/-- The future is done. -/
def done (c : Call V) : Bool := c.future.any FutureState.done

/-- The future is done: its callback, if there is one, runs. -/
def fire (c : Call V) : Call V :=
  if c.callback then { c with callback := false, entering := c.entering + 1 } else c

/-- `add_done_callback`: on a done future the callback runs at once. -/
def addDoneCallback (c : Call V) : Call V :=
  if c.done then { c with entering := c.entering + 1 } else { c with callback := true }

/-- `Future.cancel`: only a future that was not started. -/
def cancel (c : Call V) : Call V :=
  if c.future = some .pending then { c with future := some .cancelled }.fire else c

/-- The budget of the wait has elapsed. -/
def elapsed (c : Call V) (now : ℚ) : Bool := c.waitFrom + c.timeoutMs / 1000 ≤ now

end Call

structure BoundedValidationExecutor (V : Type) where
  maxWorkers : ℕ
  maxPending : ℕ
  /-- The value of the bounded semaphore. -/
  sem : ℕ
  inFlight : ℤ := 0
  rejectedTotal : ℕ := 0
  shutdown : Bool := false
  /-- The call whose thread is inside the lock. -/
  lock : Option ℕ := none
  /-- The semaphore raised `ValueError`: it was released too often. -/
  overReleased : Bool := false
  /-- The thread pool takes no more work. -/
  poolClosed : Bool := false
  /-- The work queue of the thread pool. -/
  queue : List ℕ := []
  calls : List (Call V) := []
  now : ℚ := 0

namespace BoundedValidationExecutor

def new (maxWorkers maxPending : ℕ) : BoundedValidationExecutor V :=
  { maxWorkers, maxPending, sem := maxWorkers + maxPending }

def capacity (s : BoundedValidationExecutor V) : ℕ := s.maxWorkers + s.maxPending

def put (s : BoundedValidationExecutor V) (i : ℕ) (c : Call V) : BoundedValidationExecutor V :=
  { s with calls := s.calls.set i c }

def add (s : BoundedValidationExecutor V) (c : Call V) : BoundedValidationExecutor V :=
  { s with calls := s.calls ++ [c] }

/-- A call takes a step it is ready for. -/
def move (s : BoundedValidationExecutor V) (i : ℕ) (ready : Call V → Bool)
    (go : Call V → BoundedValidationExecutor V) : BoundedValidationExecutor V :=
  match s.calls[i]? with
  | none => s
  | some c => if ready c then go c else s

/-- `BoundedSemaphore.release`. -/
def semRelease (s : BoundedValidationExecutor V) : BoundedValidationExecutor V :=
  if s.sem < s.capacity then { s with sem := s.sem + 1 } else { s with overReleased := true }

/-- Workers that execute a function. -/
def busy (s : BoundedValidationExecutor V) : ℕ :=
  s.calls.countP fun c => c.future = some .running

/-! ## Inside `_acquire_and_submit` -/

/-- A call enters the lock: it is refused, shed or takes a permit. -/
def enter (async : Bool) (timeoutMs : ℤ) (s : BoundedValidationExecutor V) :
    BoundedValidationExecutor V :=
  -- Another thread is inside: the call waits its turn.
  if s.lock.isSome then s
  else if s.shutdown then
    s.add { async, timeoutMs, stage := .refused, outcome := some .lifecycleError }
  else if s.sem = 0 then
    { s.add { async, timeoutMs, stage := .refused, outcome := some .loadShedError } with
      rejectedTotal := s.rejectedTotal + 1 }
  else
    { s.add { async, timeoutMs, stage := .acquired } with
      sem := s.sem - 1
      -- The permit is taken and nothing counted yet.
      lock := some s.calls.length }

/-- The call inside the lock takes its next statement. -/
def proceed (s : BoundedValidationExecutor V) (i : ℕ) (c : Call V) :
    BoundedValidationExecutor V :=
  match c.stage with
  | .acquired => { s.put i { c with stage := .counted } with inFlight := s.inFlight + 1 }
  | .counted =>
      -- `submit` raises `RuntimeError` where the pool was shut down from outside.
      if s.poolClosed then
        { s.put i { c with stage := .uncounted } with inFlight := s.inFlight - 1 }
      else
        { s.put i { c with stage := .submitted, future := some .pending } with
          queue := s.queue ++ [i]
          lock := none }
  | .uncounted => (s.put i { c with stage := .restored }).semRelease
  | .restored =>
      { s.put i { c with stage := .refused, outcome := some .lifecycleError } with
        shutdown := true
        lock := none }
  | _ => s

/-! ## Workers -/

/-- A free worker takes the oldest item: a cancelled one is dropped. -/
def take (s : BoundedValidationExecutor V) : BoundedValidationExecutor V :=
  match s.queue with
  | [] => s
  | i :: queue =>
      if s.busy < s.maxWorkers then
        match s.calls[i]? with
        | none => s
        | some c =>
            if c.future = some .pending then
              { s.put i { c with future := some .running } with queue }
            -- Its place in the queue was all that was left of it.
            else { s with queue }
      else s

/-! ## Ends of a wait -/

/-- What an async wait makes of the future's exception, given what asyncio
hands over of one; a future it cannot hand over leaves the wait to its budget. -/
def deliveredAsync (convert : Exc → Option Exc) : Except Exc V → Option (Except Exc V)
  | .ok v => some (.ok v)
  | .error e => (convert e).map .error

/-- A `TimeoutError` of the future is caught and raised anew. -/
def report : Except Exc V → Outcome V
  | .ok v => .delivered (.ok v)
  | .error e => if e.isTimeoutError then .timeoutError else .delivered (.error e)

/-- What a call is handed of its future's result. -/
def handed (convert : Exc → Option Exc) (c : Call V) : Option (Except Exc V) :=
  c.result.bind fun result => if c.async then deliveredAsync convert result else some result

/-! ## Steps -/

inductive Event (V : Type) where
  | call (async : Bool) (timeoutMs : ℤ)
  | proceed
  /-- `add_done_callback`, after which the wait begins. -/
  | register (i : ℕ)
  | take
  | finish (i : ℕ) (result : Except Exc V)
  /-- The first half of `_release`, under the lock, and the second. -/
  | countOut (i : ℕ)
  | release (i : ℕ)
  /-- `future.result` raises `TimeoutError`. -/
  | timeout (i : ℕ)
  /-- An async wait is given up, for its budget or with its caller, and
  asyncio cancels the future. -/
  | timeoutAsync (i : ℕ)
  | cancelCaller (i : ℕ)
  | deliver (i : ℕ)
  | shutdown
  | closePool
  | tick (elapsed : ℚ)

/-- One step, where asyncio hands over an exception as `convert` says. -/
def step (convert : Exc → Option Exc) :
    Event V → BoundedValidationExecutor V → BoundedValidationExecutor V
  | .call async timeoutMs, s => s.enter async timeoutMs
  | .proceed, s =>
      match s.lock with
      | none => s
      | some i => s.move i (fun _ => true) (s.proceed i)
  | .register i, s =>
      s.move i (·.stage = .submitted) fun c =>
        s.put i { c.addDoneCallback with stage := .waiting, waitFrom := s.now }
  | .take, s => s.take
  | .finish i result, s =>
      s.move i (·.future = some .running) fun c =>
        s.put i { c with future := some .finished, result := some result }.fire
  | .countOut i, s =>
      s.move i (fun c => 0 < c.entering && s.lock = none) fun c =>
        { s.put i { c with entering := c.entering - 1, leaving := c.leaving + 1 } with
          inFlight := s.inFlight - 1 }
  | .release i, s =>
      s.move i (0 < ·.leaving) fun c =>
        (s.put i { c with leaving := c.leaving - 1, releases := c.releases + 1 }).semRelease
  | .timeout i, s =>
      s.move i (fun c => c.stage = .waiting && !c.async && !c.done && c.elapsed s.now) fun c =>
        s.put i { c with stage := .ended, outcome := some .timeoutError }
  | .timeoutAsync i, s =>
      s.move i (fun c => c.stage = .waiting && c.async && c.elapsed s.now) fun c =>
        s.put i { c.cancel with stage := .ended, outcome := some .timeoutError }
  | .cancelCaller i, s =>
      s.move i (fun c => c.stage = .waiting && c.async) fun c =>
        s.put i { c.cancel with stage := .ended, outcome := some .cancelledError }
  | .deliver i, s =>
      s.move i (fun c => c.stage = .waiting && c.future = some .finished &&
          (handed convert c).isSome) fun c =>
        s.put i { c with stage := .ended, outcome := (handed convert c).map report }
  | .shutdown, s => if s.lock.isSome then s else { s with shutdown := true }
  | .closePool, s => { s with poolClosed := true }
  | .tick elapsed, s => if 0 ≤ elapsed then { s with now := s.now + elapsed } else s

/-- A call that is submitted and waits. -/
def submission (i : ℕ) (async : Bool) (timeoutMs : ℤ) : List (Event V) :=
  [.call async timeoutMs, .proceed, .proceed, .register i]

end BoundedValidationExecutor

end Congine
