/-!
# Statistics

Counters of 32 bits over the requests of a batch.
-/

namespace Deduction

/-- How many requests there were and how they went. -/
structure Statistics where
  /-- The number of requests. -/
  requests : UInt32 := 0
  /-- The number of accepted requests. -/
  accepted : UInt32 := 0
  /-- The number of rejected requests. -/
  rejected : UInt32 := 0
  deriving DecidableEq, Repr

namespace Statistics

/-- Count a request. -/
def addRequest (s : Statistics) : Statistics := { s with requests := s.requests + 1 }

/-- Count an accepted request. -/
def addAccepted (s : Statistics) : Statistics := { s with accepted := s.accepted + 1 }

/-- Count a rejected request. -/
def addRejected (s : Statistics) : Statistics := { s with rejected := s.rejected + 1 }

/-- Whether no request was rejected. -/
def allAccepted (s : Statistics) : Bool := s.rejected == 0

end Statistics

end Deduction
