import LedgerDatabase.Distributed.Vr.Replica

/-!
# `TimeStampServer`

The application of the replicas that hand out timestamps.
-/

namespace LedgerDatabase.Distributed

/-- `TimeStampServer`. -/
structure TimeStampServer where
  ts : ℕ := 0
  deriving DecidableEq, Repr

namespace TimeStampServer

/-- `TimeStampServer::newTimeStamp`. -/
def newTimeStamp (s : TimeStampServer) : Bytes × TimeStampServer :=
  (toDecimal (s.ts + 1), { ts := s.ts + 1 })

/-- The upcalls; `replicate` keeps its first value. -/
def app : Vr.App TimeStampServer where
  leaderUpcall _ _ s := (false, s.newTimeStamp)
  replicaUpcall _ _ s := s.newTimeStamp
  unloggedUpcall _ s := ([], s)

end TimeStampServer

end LedgerDatabase.Distributed
