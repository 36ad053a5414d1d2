import Deduction.Batch.Statistics
import Deduction.Request
import Deduction.Text.Space

/-!
# Worker pools

The requests of a batch are answered by a pool of workers. A worker takes the
next request from the queue, counts it, handles it, counts the outcome and
stores the response in the place of the request. Each of these is one atomic
step, and `Pool.step` lets one worker make its next step, so any interleaving is
a list of worker numbers. A batch is run by letting the workers take turns.
-/

namespace Deduction.Batch

/-- How far a worker is. -/
inductive Phase where
  /-- About to take a request. -/
  | ready
  /-- Holding a request. -/
  | taken (index : Nat) (line : String)
  /-- Holding a request that has been counted. -/
  | counted (index : Nat) (line : String)
  /-- Holding the outcome of a request. -/
  | handled (index : Nat) (outcome : Outcome Json)
  /-- Holding the outcome of a request that has been counted. -/
  | tallied (index : Nat) (outcome : Outcome Json)
  /-- Done, as the queue was empty. -/
  | finished

/-- A note that a request was rejected. -/
structure Rejection where
  /-- The worker that handled the request. -/
  worker : Nat
  /-- The position of the request in the batch. -/
  index : Nat
  /-- Why it was rejected. -/
  error : Error
  deriving DecidableEq, Repr

/-- A pool of workers on a batch. -/
structure Pool where
  /-- The position of the next request in the queue. -/
  next : Nat
  /-- How far each worker is. -/
  workers : List Phase
  /-- The counters. -/
  statistics : Statistics
  /-- The responses, by position. -/
  responses : List String
  /-- The rejections so far. -/
  rejections : List Rejection

namespace Pool

/-- The pool before the first step. There is at least one worker, and no more than requests. -/
def initial (requests : List String) (jobs : Nat) : Pool where
  next := 0
  workers := List.replicate (min (max jobs 1) (max requests.length 1)) .ready
  statistics := {}
  responses := List.replicate requests.length ""
  rejections := []

/-- Move a worker on. -/
def setPhase (p : Pool) (worker : Nat) (phase : Phase) : Pool :=
  { p with workers := p.workers.set worker phase }

/-- Count the outcome of a request. -/
def tally (p : Pool) (worker index : Nat) : Outcome Json → Pool
  | .ok _ => { p with statistics := p.statistics.addAccepted }
  | .error e =>
    { p with
      statistics := p.statistics.addRejected
      rejections := p.rejections ++ [⟨worker, index, e⟩] }

/-- Let a worker make its next step. -/
def step (requests : List String) (p : Pool) (worker : Nat) : Pool :=
  match p.workers[worker]? with
  | some .ready =>
    match requests[p.next]? with
    | some line => { p.setPhase worker (.taken p.next line) with next := p.next + 1 }
    | none => p.setPhase worker .finished
  | some (.taken index line) =>
    { p.setPhase worker (.counted index line) with statistics := p.statistics.addRequest }
  | some (.counted index line) => p.setPhase worker (.handled index (Request.handle line))
  | some (.handled index outcome) =>
    (p.setPhase worker (.tallied index outcome)).tally worker index outcome
  | some (.tallied index outcome) =>
    { p.setPhase worker .ready with
      responses := p.responses.set index (Request.respond outcome).render }
  | some .finished => p
  | none => p

/-- Let workers make steps in the given order. -/
def run (requests : List String) (p : Pool) (schedule : List Nat) : Pool :=
  schedule.foldl (step requests) p

/-- Whether all workers are done. -/
def isFinished (p : Pool) : Bool :=
  p.workers.all fun phase => phase matches .finished

/-- Let the workers take turns for some rounds. -/
def runRounds (requests : List String) : Nat → Pool → Pool
  | 0, p => p
  | rounds + 1, p =>
    if p.isFinished then p
    else runRounds requests rounds (p.run requests (List.range p.workers.length))

end Pool

/-- Answer all requests of a batch. Even a single worker needs five steps for each request and
one to find the queue empty. -/
def process (requests : List String) (jobs : Nat) : Pool :=
  (Pool.initial requests jobs).runRounds requests (5 * requests.length + 1)

/-- The requests in a text: its lines without white space around them, if anything is left. -/
def readRequests (text : String) : List String :=
  let lines := (text.toList.splitOn '\n').map Text.trim
  (lines.filter fun line => !line.isEmpty).map String.ofList

end Deduction.Batch
