import LedgerDatabase.Common.Bytes

/-!
# The log of a replica

`replication::Log` without the hashes of its entries, which decide nothing.  The numbers are
`uint64_t`, and so the differences and successors below are taken modulo `2^64`; `VRReplica`
numbers the entries from one.
-/

namespace LedgerDatabase.Distributed.Vr

/-- `viewstamp_t`. -/
structure Viewstamp where
  view : ℕ
  opnum : ℕ
  deriving DecidableEq, Repr

/-- `Request` of the replication protocol. -/
structure Request where
  op : Bytes
  clientid : ℕ
  clientreqid : ℕ
  deriving DecidableEq, Repr

/-- `LogEntryState`. -/
inductive LogEntryState
  | committed
  | prepared
  | speculative
  | fastprepared
  deriving DecidableEq, Repr

/-- `LogEntry`; it is also what is sent of one in a message. -/
structure LogEntry where
  viewstamp : Viewstamp
  state : LogEntryState
  request : Request
  deriving DecidableEq, Repr

/-- `Log`. -/
structure Log where
  entries : List LogEntry := []
  /-- The number of the first entry. -/
  start : ℕ := 1
  deriving DecidableEq, Repr

namespace Log

/-- `Log::LastViewstamp`. -/
def lastViewstamp (log : Log) : Viewstamp :=
  match log.entries.getLast? with
  | none => ⟨0, subSize log.start 1⟩
  | some entry => entry.viewstamp

/-- `Log::LastOpnum`. -/
def lastOpnum (log : Log) : ℕ := log.lastViewstamp.opnum

/-- `Log::Find`. -/
def find (opnum : ℕ) (log : Log) : Except Fault (Option LogEntry) :=
  if log.entries = [] then .ok none
  else if opnum < log.start then .ok none
  else if opnum - log.start > log.entries.length - 1 then .ok none
  else do
    let entry ← at? log.entries (opnum - log.start)
    if entry.viewstamp.opnum = opnum then return some entry else .error .assertion

/-- `Log::Append`. -/
def append (vs : Viewstamp) (request : Request) (state : LogEntryState) (log : Log) :
    Except Fault Log :=
  if vs.opnum = (if log.entries = [] then log.start else (log.lastOpnum + 1) % 2 ^ 64) then do
    let log : Log := { log with entries := log.entries ++ [⟨vs, state, request⟩] }
    -- the reference that is returned
    match ← log.find vs.opnum with
    | some _ => return log
    | none => .error .dangling
  else .error .assertion

/-- `Log::SetStatus`. -/
def setStatus (op : ℕ) (state : LogEntryState) (log : Log) : Except Fault Log := do
  match ← log.find op with
  | none => return log
  | some entry => return { log with entries := log.entries.set (op - log.start) { entry with state } }

/-- `Log::RemoveAfter`. -/
def removeAfter (op : ℕ) (log : Log) : Except Fault Log :=
  if op > log.lastOpnum then .ok log
  else if ¬ subSize op log.start < log.entries.length then .error .assertion
  else
    let log : Log := { log with entries := log.entries.take (subSize op log.start) }
    if log.lastOpnum = subSize op 1 then .ok log else .error .assertion

/-- The loop of `Log::Dump`. -/
def dumpLoop (log : Log) : List ℕ → Except Fault (List LogEntry)
  | [] => .ok []
  | i :: is => do
    match ← log.find i with
    | none => .error .assertion
    | some entry => return entry :: (← dumpLoop log is)

/-- `Log::Dump`. -/
def dump (first : ℕ) (log : Log) : Except Fault (List LogEntry) :=
  let first := max first log.start
  dumpLoop log (List.range' first (log.lastOpnum + 1 - first))

/-- The first loop of `Log::Install`: the log and the entries from the first divergence on. -/
def diverge (log : Log) : List LogEntry → Except Fault (Log × List LogEntry)
  | [] => .ok (log, [])
  | it :: rest => do
    match ← log.find it.viewstamp.opnum with
    | none => return (log, it :: rest)
    | some old =>
      if it.viewstamp.view ≠ old.viewstamp.view then
        return (← log.removeAfter it.viewstamp.opnum, it :: rest)
      else diverge log rest

/-- The second loop of `Log::Install`. -/
def appendAll (log : Log) : List LogEntry → Except Fault Log
  | [] => .ok log
  | it :: rest => do
    appendAll (← log.append it.viewstamp it.request .prepared) rest

/-- `Log::Install`. -/
def install (entries : List LogEntry) (log : Log) : Except Fault Log := do
  let (log, rest) ← diverge log entries
  appendAll log rest

end Log

end LedgerDatabase.Distributed.Vr
