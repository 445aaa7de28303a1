import LedgerDatabase.Distributed.Vr.Log

/-!
# `VRReplica`

A replica of the viewstamped replication protocol with all its message handlers and timers.  A
handler takes the state to the next one; the messages it sends are appended to `outbox`.

A request that the application wants to be replicated is only counted: `HandleRequest` increments
`lastOp` and `lastCommitted` and does not append it to the log.
-/

namespace LedgerDatabase.Distributed.Vr

/-- `transport::Configuration`: a group of `2 * f + 1` replicas. -/
structure Configuration where
  f : ℕ

namespace Configuration

def n (c : Configuration) : ℕ := 2 * c.f + 1

/-- `Configuration::QuorumSize`. -/
def quorumSize (c : Configuration) : ℕ := c.f + 1

/-- `Configuration::GetLeaderIndex`. -/
def leaderIndex (c : Configuration) (view : ℕ) : ℕ := view % c.n

end Configuration

/-- `AppReplica`: what an upcall returns and the state afterwards.  `leaderUpcall` also says
whether to replicate. -/
structure App (A : Type) where
  leaderUpcall : ℕ → Bytes → A → Bool × Bytes × A
  replicaUpcall : ℕ → Bytes → A → Bytes × A
  unloggedUpcall : Bytes → A → Bytes × A

/-! ### Messages -/

structure ReplyMessage where
  view : ℕ := 0
  opnum : ℕ := 0
  clientreqid : ℕ := 0
  reply : Bytes := []
  deriving DecidableEq, Repr

structure PrepareMessage where
  view : ℕ := 0
  opnum : ℕ := 0
  batchstart : ℕ := 0
  request : List Request := []
  deriving DecidableEq, Repr

structure PrepareOKMessage where
  view : ℕ
  opnum : ℕ
  replicaIdx : ℕ
  deriving DecidableEq, Repr

structure CommitMessage where
  view : ℕ
  opnum : ℕ
  deriving DecidableEq, Repr

structure RequestStateTransferMessage where
  view : ℕ
  opnum : ℕ
  deriving DecidableEq, Repr

structure StateTransferMessage where
  view : ℕ
  opnum : ℕ
  entries : List LogEntry
  deriving DecidableEq, Repr

structure StartViewChangeMessage where
  view : ℕ
  replicaIdx : ℕ
  lastCommitted : ℕ
  deriving DecidableEq, Repr

structure DoViewChangeMessage where
  view : ℕ
  lastNormalView : ℕ
  lastOp : ℕ
  lastCommitted : ℕ
  entries : List LogEntry
  replicaIdx : ℕ
  deriving DecidableEq, Repr

structure StartViewMessage where
  view : ℕ
  lastOp : ℕ
  lastCommitted : ℕ
  entries : List LogEntry
  deriving DecidableEq, Repr

/-- The messages between replicas. -/
inductive Message
  | prepare (msg : PrepareMessage)
  | prepareOK (msg : PrepareOKMessage)
  | commit (msg : CommitMessage)
  | requestStateTransfer (msg : RequestStateTransferMessage)
  | stateTransfer (msg : StateTransferMessage)
  | startViewChange (msg : StartViewChangeMessage)
  | doViewChange (msg : DoViewChangeMessage)
  | startView (msg : StartViewMessage)
  deriving DecidableEq, Repr

/-- What a replica sends. -/
inductive Output
  /-- `SendMessageToAll`, from a replica to all others. -/
  | toAll (msg : Message)
  /-- `SendMessageToReplica`, or `SendMessage` to the address of a replica. -/
  | toReplica (idx : ℕ) (msg : Message)
  /-- `SendMessage` to the address of a client. -/
  | toClient (remote : ℕ) (msg : ReplyMessage)
  deriving DecidableEq, Repr

/-! ### Quorums -/

/-- `QuorumSet`: the messages by their identifier and the index of their replica. -/
structure QuorumSet (ID MSG : Type) where
  messages : ID → List (ℕ × MSG) := fun _ => []

namespace QuorumSet

variable {ID MSG : Type}

/-- `vsmessages[replicaIdx] = msg` of a `std::map<int, MSG>`. -/
def assign (replicaIdx : ℕ) (msg : MSG) : List (ℕ × MSG) → List (ℕ × MSG)
  | [] => [(replicaIdx, msg)]
  | (i, m) :: rest =>
    if replicaIdx = i then (i, msg) :: rest
    else if replicaIdx < i then (replicaIdx, msg) :: (i, m) :: rest
    else (i, m) :: assign replicaIdx msg rest

/-- `QuorumSet::AddAndCheckForQuorum`. -/
def addAndCheckForQuorum [DecidableEq ID] (numRequired : ℕ) (vs : ID) (replicaIdx : ℕ) (msg : MSG)
    (q : QuorumSet ID MSG) : QuorumSet ID MSG × Option (List (ℕ × MSG)) :=
  let vsmessages := assign replicaIdx msg (q.messages vs)
  ({ messages := Function.update q.messages vs vsmessages },
    if vsmessages.length ≥ numRequired then some vsmessages else none)

end QuorumSet

/-! ### The state -/

/-- `ReplicaStatus`. -/
inductive Status
  | normal
  | viewChange
  deriving DecidableEq, Repr

/-- `VRReplica::ClientTableEntry`, as `operator[]` makes it. -/
structure ClientTableEntry where
  lastReqId : ℕ := 0
  replied : Bool := false
  reply : ReplyMessage := {}
  deriving DecidableEq, Repr

/-- A call of `LeaderUpcall`: the request, and what the application returned. -/
structure Upcall where
  request : Request
  replicate : Bool
  res : Bytes
  deriving DecidableEq, Repr

/-- `VRReplica`.  A timer is running or not; the one of the state transfer is always running.
`upcalls` records what has happened; no handler reads it. -/
structure VRReplica (A : Type) where
  myIdx : ℕ
  app : A
  status : Status := .normal
  view : ℕ := 0
  lastOp : ℕ := 0
  lastCommitted : ℕ := 0
  lastRequestStateTransferView : ℕ := 0
  lastRequestStateTransferOpnum : ℕ := 0
  pendingPrepares : List (ℕ × PrepareMessage) := []
  lastPrepare : PrepareMessage := {}
  lastBatchEnd : ℕ := 0
  log : Log := {}
  clientAddresses : ℕ → Option ℕ := fun _ => none
  clientTable : ℕ → Option ClientTableEntry := fun _ => none
  prepareOKQuorum : QuorumSet Viewstamp PrepareOKMessage := {}
  startViewChangeQuorum : QuorumSet ℕ StartViewChangeMessage := {}
  doViewChangeQuorum : QuorumSet ℕ DoViewChangeMessage := {}
  viewChangeTimeout : Bool
  nullCommitTimeout : Bool
  resendPrepareTimeout : Bool := false
  closeBatchTimeout : Bool := false
  outbox : List Output := []
  upcalls : List Upcall := []

/-- The function of the source in which a replica stops. -/
inductive Site
  | commitUpTo
  | sendPrepareOKs
  | sendNullCommit
  | resendPrepare
  | closeBatch
  | handleRequest
  | handlePrepare
  | handleCommit
  | handleRequestStateTransfer
  | handleStateTransfer
  | handleStartViewChange
  | handleDoViewChange
  | handleStartView
  deriving DecidableEq, Repr

/-- How a replica stops. -/
structure Failure where
  site : Site
  fault : Fault
  deriving DecidableEq, Repr

/-- A call inside a function. -/
def inside {α : Type} (site : Site) : Except Fault α → Except Failure α
  | .error fault => .error ⟨site, fault⟩
  | .ok a => .ok a

/-- `ASSERT` in a function. -/
def assert (site : Site) (p : Prop) [Decidable p] : Except Failure Unit :=
  if p then .ok () else .error ⟨site, .assertion⟩

namespace VRReplica

variable {A : Type} (c : Configuration) (app : App A)

/-- The constructor. -/
def new (myIdx : ℕ) (a : A) : VRReplica A :=
  { myIdx, app := a, viewChangeTimeout := c.leaderIndex 0 ≠ myIdx
    nullCommitTimeout := c.leaderIndex 0 = myIdx }

/-- `VRReplica::AmLeader`. -/
def amLeader (r : VRReplica A) : Bool := c.leaderIndex r.view = r.myIdx

/-- A message is sent. -/
def send (out : Output) (r : VRReplica A) : VRReplica A := { r with outbox := r.outbox ++ [out] }

/-! ### Committing -/

/-- A round of the loop of `CommitUpTo`. -/
def commitNext (r : VRReplica A) : Except Failure (VRReplica A) := do
  let lastCommitted := r.lastCommitted + 1
  match ← inside .commitUpTo (r.log.find lastCommitted) with
  | none => .error ⟨.commitUpTo, .panic⟩
  | some entry =>
    let (res, a) := app.replicaUpcall lastCommitted entry.request.op r.app
    let reply : ReplyMessage :=
      ⟨entry.viewstamp.view, entry.viewstamp.opnum, entry.request.clientreqid, res⟩
    let log ← inside .commitUpTo (r.log.setStatus lastCommitted .committed)
    let cte := (r.clientTable entry.request.clientid).getD {}
    let cte : ClientTableEntry :=
      if cte.lastReqId ≤ entry.request.clientreqid then ⟨entry.request.clientreqid, true, reply⟩
      else cte
    let r := { r with
      lastCommitted, app := a, log
      clientTable := Function.update r.clientTable entry.request.clientid (some cte) }
    match r.clientAddresses entry.request.clientid with
    | none => return r
    | some remote => return r.send (.toClient remote reply)

def commitLoop : ℕ → VRReplica A → Except Failure (VRReplica A)
  | 0, r => .ok r
  | n + 1, r => do commitLoop n (← r.commitNext app)

/-- `VRReplica::CommitUpTo`: every round increments `lastCommitted`. -/
def commitUpTo (upto : ℕ) (r : VRReplica A) : Except Failure (VRReplica A) :=
  commitLoop app (upto - r.lastCommitted) r

/-- `VRReplica::UpdateClientTable`. -/
def updateClientTable (req : Request) (r : VRReplica A) : Except Fault (VRReplica A) :=
  let entry := (r.clientTable req.clientid).getD {}
  if ¬ entry.lastReqId ≤ req.clientreqid then .error .assertion
  else
    let entry : ClientTableEntry :=
      if entry.lastReqId = req.clientreqid then entry else ⟨req.clientreqid, false, {}⟩
    .ok { r with clientTable := Function.update r.clientTable req.clientid (some entry) }

/-- A `PrepareOKMessage` to the leader. -/
def sendPrepareOK (view opnum : ℕ) (r : VRReplica A) : VRReplica A :=
  r.send (.toReplica (c.leaderIndex r.view) (.prepareOK ⟨view, opnum, r.myIdx⟩))

def sendPrepareOKsLoop : List ℕ → VRReplica A → Except Failure (VRReplica A)
  | [], r => .ok r
  | i :: is, r =>
    if i ≤ r.lastCommitted then sendPrepareOKsLoop is r
    else do
      match ← inside .sendPrepareOKs (r.log.find i) with
      | none => .error ⟨.sendPrepareOKs, .panic⟩
      | some entry =>
        assert .sendPrepareOKs (entry.state = .prepared)
        let r ← inside .sendPrepareOKs (r.updateClientTable entry.request)
        sendPrepareOKsLoop is (r.sendPrepareOK c r.view i)

/-- `VRReplica::SendPrepareOKs`. -/
def sendPrepareOKs (oldLastOp : ℕ) (r : VRReplica A) : Except Failure (VRReplica A) :=
  sendPrepareOKsLoop c (List.range' oldLastOp (r.lastOp + 1 - oldLastOp)) r

/-! ### Views and timers -/

/-- `VRReplica::RequestStateTransfer`. -/
def requestStateTransfer (r : VRReplica A) : VRReplica A :=
  if r.lastRequestStateTransferOpnum ≠ 0 ∧ r.lastRequestStateTransferView = r.view ∧
      r.lastRequestStateTransferOpnum = r.lastCommitted then r
  else
    { r with
      lastRequestStateTransferView := r.view
      lastRequestStateTransferOpnum := r.lastCommitted }.send
        (.toAll (.requestStateTransfer ⟨r.view, r.lastCommitted⟩))

/-- `VRReplica::EnterView`. -/
def enterView (newview : ℕ) (r : VRReplica A) : VRReplica A :=
  let r := { r with view := newview, status := .normal, lastBatchEnd := r.lastOp }
  let r :=
    if r.amLeader c then { r with viewChangeTimeout := false, nullCommitTimeout := true }
    else { r with
      viewChangeTimeout := true, nullCommitTimeout := false, resendPrepareTimeout := false
      closeBatchTimeout := false }
  { r with prepareOKQuorum := {}, startViewChangeQuorum := {}, doViewChangeQuorum := {} }

/-- `VRReplica::StartViewChange`. -/
def startViewChange (newview : ℕ) (r : VRReplica A) : VRReplica A :=
  { r with
    view := newview, status := .viewChange, viewChangeTimeout := true, nullCommitTimeout := false
    resendPrepareTimeout := false, closeBatchTimeout := false }.send
      (.toAll (.startViewChange ⟨newview, r.myIdx, r.lastCommitted⟩))

/-- `VRReplica::SendNullCommit`. -/
def sendNullCommit (r : VRReplica A) : Except Failure (VRReplica A) := do
  assert .sendNullCommit (r.amLeader c)
  return r.send (.toAll (.commit ⟨r.view, r.lastCommitted⟩))

/-- `VRReplica::ResendPrepare`. -/
def resendPrepare (r : VRReplica A) : Except Failure (VRReplica A) := do
  assert .resendPrepare (r.amLeader c)
  if r.lastOp = r.lastCommitted then return r
  return r.send (.toAll (.prepare r.lastPrepare))

/-- The loop of `CloseBatch`. -/
def batchRequests (r : VRReplica A) : List ℕ → Except Failure (List Request)
  | [] => .ok []
  | i :: is => do
    match ← inside .closeBatch (r.log.find i) with
    | none => .error ⟨.closeBatch, .assertion⟩
    | some entry =>
      assert .closeBatch (entry.viewstamp.view = r.view)
      assert .closeBatch (entry.viewstamp.opnum = i)
      return entry.request :: (← batchRequests r is)

/-- `VRReplica::CloseBatch`. -/
def closeBatch (r : VRReplica A) : Except Failure (VRReplica A) := do
  assert .closeBatch (r.amLeader c)
  assert .closeBatch (r.lastBatchEnd < r.lastOp)
  let batchStart := r.lastBatchEnd + 1
  let request ← r.batchRequests (List.range' batchStart (r.lastOp + 1 - batchStart))
  let p : PrepareMessage := ⟨r.view, r.lastOp, batchStart, request⟩
  let r := r.send (.toAll (.prepare p))
  return { r with
    lastPrepare := p, lastBatchEnd := r.lastOp, resendPrepareTimeout := true
    closeBatchTimeout := false }

/-! ### Requests -/

/-- The check against the client table. -/
def isDuplicate (req : Request) (r : VRReplica A) : Bool :=
  match r.clientTable req.clientid with
  | none => false
  | some entry => req.clientreqid ≤ entry.lastReqId

/-- The stored reply is sent again. -/
def resendReply (remote : ℕ) (req : Request) (r : VRReplica A) : VRReplica A :=
  match r.clientTable req.clientid with
  | none => r
  | some entry =>
    if req.clientreqid = entry.lastReqId ∧ entry.replied then r.send (.toClient remote entry.reply)
    else r

/-- `LeaderUpcall` and the reply. -/
def execute (remote : ℕ) (req : Request) (r : VRReplica A) : VRReplica A :=
  let (replicate, res, a) := app.leaderUpcall r.lastCommitted req.op r.app
  let cte := (r.clientTable req.clientid).getD {}
  let r : VRReplica A := { r with app := a, upcalls := r.upcalls ++ [⟨req, replicate, res⟩] }
  let r :=
    if replicate then
      { r with lastOp := r.lastOp + 1, lastCommitted := r.lastCommitted + 1 }
    else r
  let reply : ReplyMessage :=
    if replicate then ⟨r.view, r.lastOp, req.clientreqid, res⟩ else ⟨0, 0, req.clientreqid, res⟩
  { r with
    clientTable := Function.update r.clientTable req.clientid
      (some { cte with replied := true, reply }) }.send (.toClient remote reply)

/-- `VRReplica::HandleRequest`. -/
def handleRequest (remote : ℕ) (req : Request) (r : VRReplica A) :
    Except Failure (VRReplica A) :=
  if r.status ≠ .normal then .ok r
  else if ¬ r.amLeader c then .ok r
  else
    let r := { r with
      clientAddresses := Function.update r.clientAddresses req.clientid (some remote) }
    if r.isDuplicate req then .ok (r.resendReply remote req)
    else do
      let r ← inside .handleRequest (r.updateClientTable req)
      return r.execute app remote req

/-- Requests, each with the address of its client, in the order of their arrival. -/
def handleRequests : List (ℕ × Request) → VRReplica A → Except Failure (VRReplica A)
  | [], r => .ok r
  | (remote, req) :: msgs, r => do handleRequests msgs (← r.handleRequest c app remote req)

/-- `VRReplica::HandleUnloggedRequest`; the answer has no place in the protocol. -/
def handleUnloggedRequest (op : Bytes) (r : VRReplica A) : VRReplica A :=
  if r.status ≠ .normal then r else { r with app := (app.unloggedUpcall op r.app).2 }

/-! ### Messages from replicas -/

/-- The loop of `HandlePrepare`: the number after the last one, and the replica. -/
def prepareLoop (view : ℕ) : ℕ → List Request → VRReplica A → Except Failure (ℕ × VRReplica A)
  | op, [], r => .ok (op, r)
  | op, req :: reqs, r =>
    if op ≤ r.lastOp then prepareLoop view (op + 1) reqs r
    else do
      let log ← inside .handlePrepare (r.log.append ⟨view, op⟩ req .prepared)
      let r ← inside .handlePrepare
        (updateClientTable req { r with lastOp := r.lastOp + 1, log })
      prepareLoop view (op + 1) reqs r

/-- `VRReplica::HandlePrepare`. -/
def handlePrepare (remote : ℕ) (msg : PrepareMessage) (r : VRReplica A) :
    Except Failure (VRReplica A) :=
  let later (r : VRReplica A) : VRReplica A :=
    let r := r.requestStateTransfer
    { r with pendingPrepares := r.pendingPrepares ++ [(remote, msg)] }
  if r.status ≠ .normal then .ok r
  else if msg.view < r.view then .ok r
  else if msg.view > r.view then .ok (later r)
  else if r.amLeader c then .error ⟨.handlePrepare, .panic⟩
  else do
    assert .handlePrepare (msg.batchstart ≤ msg.opnum)
    assert .handlePrepare (msg.opnum - msg.batchstart + 1 = msg.request.length)
    let r := { r with viewChangeTimeout := true }
    if msg.opnum ≤ r.lastOp then return r.sendPrepareOK c msg.view msg.opnum
    else if msg.batchstart > r.lastOp + 1 then return later r
    else
      let (op, r) ← prepareLoop msg.view msg.batchstart msg.request r
      assert .handlePrepare (op = msg.opnum + 1)
      return r.sendPrepareOK c msg.view msg.opnum

/-- `VRReplica::HandlePrepareOK`. -/
def handlePrepareOK (msg : PrepareOKMessage) (r : VRReplica A) : Except Failure (VRReplica A) :=
  if r.status ≠ .normal then .ok r
  else if msg.view < r.view then .ok r
  else if msg.view > r.view then .ok r.requestStateTransfer
  else if ¬ r.amLeader c then .ok r
  else
    let (prepareOKQuorum, msgs) := r.prepareOKQuorum.addAndCheckForQuorum (c.quorumSize - 1)
      ⟨msg.view, msg.opnum⟩ msg.replicaIdx msg
    let r := { r with prepareOKQuorum }
    match msgs with
    | none => .ok r
    | some msgs => do
      let r : VRReplica A ← r.commitUpTo app msg.opnum
      if msgs.length ≥ c.quorumSize then return r
      let r : VRReplica A := r.send (.toAll (.commit ⟨r.view, r.lastCommitted⟩))
      return { r with nullCommitTimeout := true }

/-- `VRReplica::HandleCommit`. -/
def handleCommit (msg : CommitMessage) (r : VRReplica A) : Except Failure (VRReplica A) :=
  if r.status ≠ .normal then .ok r
  else if msg.view < r.view then .ok r
  else if msg.view > r.view then .ok r.requestStateTransfer
  else if r.amLeader c then .error ⟨.handleCommit, .panic⟩
  else
    let r := { r with viewChangeTimeout := true }
    if msg.opnum ≤ r.lastCommitted then .ok r
    else if msg.opnum > r.lastOp then .ok r.requestStateTransfer
    else r.commitUpTo app msg.opnum

/-- `VRReplica::HandleRequestStateTransfer`. -/
def handleRequestStateTransfer (remote : ℕ) (msg : RequestStateTransferMessage)
    (r : VRReplica A) : Except Failure (VRReplica A) :=
  if r.status ≠ .normal then .ok r
  else if msg.view > r.view then .ok r.requestStateTransfer
  else do
    let entries ← inside .handleRequestStateTransfer (r.log.dump (msg.opnum + 1))
    return r.send (.toReplica remote (.stateTransfer ⟨r.view, r.lastCommitted, entries⟩))

/-- A new entry of a state transfer that replaces an old one. -/
def replaceEntry (newEntry : LogEntry) (oldLastOp : ℕ) (r : VRReplica A) :
    Except Failure (ℕ × VRReplica A) := do
  match ← inside .handleStateTransfer (r.log.find newEntry.viewstamp.opnum) with
  | none => .error ⟨.handleStateTransfer, .dangling⟩
  | some entry =>
    assert .handleStateTransfer (entry.viewstamp.opnum = newEntry.viewstamp.opnum)
    assert .handleStateTransfer (entry.viewstamp.view ≤ newEntry.viewstamp.view)
    if entry.viewstamp.view = newEntry.viewstamp.view then
      assert .handleStateTransfer (entry.state = .prepared)
      return (oldLastOp, r)
    else
      assert .handleStateTransfer (entry.state ≠ .committed)
      let log ← inside .handleStateTransfer (r.log.removeAfter newEntry.viewstamp.opnum)
      let log ← inside .handleStateTransfer
        (log.append newEntry.viewstamp newEntry.request .prepared)
      return (newEntry.viewstamp.opnum, { r with lastOp := newEntry.viewstamp.opnum, log })

/-- The loop of `HandleStateTransfer`: `oldLastOp` and the replica. -/
def installLoop : List LogEntry → ℕ → VRReplica A → Except Failure (ℕ × VRReplica A)
  | [], oldLastOp, r => .ok (oldLastOp, r)
  | newEntry :: entries, oldLastOp, r =>
    if newEntry.viewstamp.opnum ≤ r.lastCommitted then installLoop entries oldLastOp r
    else if newEntry.viewstamp.opnum ≤ r.lastOp then do
      let (oldLastOp, r) ← r.replaceEntry newEntry oldLastOp
      installLoop entries oldLastOp r
    else do
      assert .handleStateTransfer (newEntry.viewstamp.opnum = r.lastOp + 1)
      let log ← inside .handleStateTransfer
        (r.log.append newEntry.viewstamp newEntry.request .prepared)
      installLoop entries oldLastOp { r with lastOp := r.lastOp + 1, log }

/-- `VRReplica::HandleStateTransfer`.  Its last loop runs over `pendingPrepares` itself, after it
has been cleared. -/
def handleStateTransfer (msg : StateTransferMessage) (r : VRReplica A) :
    Except Failure (VRReplica A) :=
  if msg.view < r.view then .ok r
  else do
    let (oldLastOp, r) ← installLoop msg.entries r.lastOp r
    let r := if msg.view > r.view then r.enterView c msg.view else r
    assert .handleStateTransfer (msg.opnum ≤ r.lastOp)
    let r ← r.commitUpTo app msg.opnum
    let r ← r.sendPrepareOKs c oldLastOp
    return { r with pendingPrepares := [] }

/-! ### View changes -/

/-- `std::min_element` over the numbers of some messages; dereferencing the end of an empty map is
undefined. -/
def minCommitted {MSG : Type} (lastCommitted : MSG → ℕ) :
    List (ℕ × MSG) → Except Fault ℕ
  | [] => .error .dangling
  | (_, msg) :: msgs =>
    .ok (msgs.foldl (fun m kv => min m (lastCommitted kv.2)) (lastCommitted msg))

/-- The view changes before it is handled further. -/
def joinViewChange (view : ℕ) (r : VRReplica A) : VRReplica A :=
  if r.status ≠ .viewChange ∨ view > r.view then r.startViewChange view else r

/-- `VRReplica::HandleStartViewChange`. -/
def handleStartViewChange (msg : StartViewChangeMessage) (r : VRReplica A) :
    Except Failure (VRReplica A) :=
  if msg.view < r.view then .ok r
  else if msg.view = r.view ∧ r.status ≠ .viewChange then .ok r
  else do
    let r := r.joinViewChange msg.view
    assert .handleStartViewChange (msg.view = r.view)
    let (startViewChangeQuorum, msgs) := r.startViewChangeQuorum.addAndCheckForQuorum
      (c.quorumSize - 1) msg.view msg.replicaIdx msg
    let r := { r with startViewChangeQuorum }
    match msgs with
    | none => return r
    | some msgs =>
      let leader := c.leaderIndex r.view
      if leader = r.myIdx then return r
      else
        let committed ← inside .handleStartViewChange (minCommitted (·.lastCommitted) msgs)
        let entries ← inside .handleStartViewChange
          (r.log.dump (min committed r.lastCommitted))
        return r.send (.toReplica leader (.doViewChange
          ⟨r.view, r.log.lastViewstamp.view, r.lastOp, r.lastCommitted, entries, r.myIdx⟩))

/-- The loop that finds the most recent log: `latestView`, `latestOp` and `latestMsg`.  The source
keeps a pointer to the loop variable; this is the message it held. -/
def latest (latestView latestOp : ℕ) (latestMsg : Option DoViewChangeMessage) :
    List (ℕ × DoViewChangeMessage) → ℕ × Option DoViewChangeMessage
  | [] => (latestOp, latestMsg)
  | (_, x) :: msgs =>
    if x.lastNormalView > latestView ∨ (x.lastNormalView = latestView ∧ x.lastOp > latestOp) then
      latest x.lastNormalView x.lastOp (some x) msgs
    else latest latestView latestOp latestMsg msgs

/-- The installation of the log of another replica. -/
def installLatest (msg latestMsg : DoViewChangeMessage) (r : VRReplica A) :
    Except Failure (VRReplica A) :=
  match latestMsg.entries with
  | [] => do
    assert .handleDoViewChange (r.lastCommitted = msg.lastCommitted)
    assert .handleDoViewChange (msg.lastOp = msg.lastCommitted)
    return r
  | first :: _ =>
    if first.viewstamp.opnum > r.lastCommitted + 1 then .error ⟨.handleDoViewChange, .panic⟩
    else do
      let log ← inside .handleDoViewChange (r.log.removeAfter (latestMsg.lastOp + 1))
      let log ← inside .handleDoViewChange (log.install latestMsg.entries)
      return { r with log }

/-- `VRReplica::HandleDoViewChange`. -/
def handleDoViewChange (msg : DoViewChangeMessage) (r : VRReplica A) :
    Except Failure (VRReplica A) :=
  if msg.view < r.view then .ok r
  else if msg.view = r.view ∧ r.status ≠ .viewChange then .ok r
  else do
    let r := r.joinViewChange msg.view
    assert .handleDoViewChange (c.leaderIndex msg.view = r.myIdx)
    let (doViewChangeQuorum, msgs) := r.doViewChangeQuorum.addAndCheckForQuorum
      (c.quorumSize - 1) msg.view msg.replicaIdx msg
    let r := { r with doViewChangeQuorum }
    match msgs with
    | none => return r
    | some msgs =>
      let (latestOp, latestMsg) :=
        latest r.log.lastViewstamp.view r.log.lastViewstamp.opnum none msgs
      let r ← match latestMsg with
        | none => pure r
        | some latestMsg => r.installLatest msg latestMsg
      let committedSVC ← inside .handleDoViewChange
        (minCommitted (·.lastCommitted) (r.startViewChangeQuorum.messages r.view))
      let committedDVC ← inside .handleDoViewChange (minCommitted (·.lastCommitted) msgs)
      let committed := min (min committedSVC committedDVC) r.lastCommitted
      let r := r.enterView c msg.view
      assert .handleDoViewChange (r.amLeader c)
      let r := { r with lastOp := latestOp }
      let r ← match latestMsg with
        | none => pure r
        | some latestMsg => r.commitUpTo app latestMsg.lastCommitted
      let entries ← inside .handleDoViewChange (r.log.dump committed)
      return r.send (.toAll (.startView ⟨r.view, r.lastOp, r.lastCommitted, entries⟩))

/-- The installation of the log of the new leader. -/
def installView (msg : StartViewMessage) (r : VRReplica A) : Except Failure (VRReplica A) :=
  match msg.entries with
  | [] => do
    assert .handleStartView (msg.lastCommitted = r.lastCommitted)
    assert .handleStartView (msg.lastOp = msg.lastCommitted)
    return r
  | first :: _ =>
    if first.viewstamp.opnum > r.lastCommitted + 1 then .error ⟨.handleStartView, .panic⟩
    else do
      let log ← inside .handleStartView (r.log.removeAfter (msg.lastOp + 1))
      let log ← inside .handleStartView (log.install msg.entries)
      return { r with log }

/-- `VRReplica::HandleStartView`. -/
def handleStartView (msg : StartViewMessage) (r : VRReplica A) : Except Failure (VRReplica A) :=
  if msg.view < r.view then .ok r
  else if msg.view = r.view ∧ r.status ≠ .viewChange then .ok r
  else do
    assert .handleStartView (c.leaderIndex msg.view ≠ r.myIdx)
    let r ← r.installView msg
    let r := r.enterView c msg.view
    let oldLastOp := r.lastOp
    let r := { r with lastOp := msg.lastOp }
    assert .handleStartView (¬ r.amLeader c)
    let r ← r.commitUpTo app msg.lastCommitted
    r.sendPrepareOKs c oldLastOp

/-- `VRReplica::ReceiveMessage`, for the messages from replicas. -/
def receiveMessage (remote : ℕ) (msg : Message) (r : VRReplica A) :
    Except Failure (VRReplica A) :=
  match msg with
  | .prepare msg => r.handlePrepare c remote msg
  | .prepareOK msg => r.handlePrepareOK c app msg
  | .commit msg => r.handleCommit c app msg
  | .requestStateTransfer msg => r.handleRequestStateTransfer remote msg
  | .stateTransfer msg => r.handleStateTransfer c app msg
  | .startViewChange msg => r.handleStartViewChange c msg
  | .doViewChange msg => r.handleDoViewChange c app msg
  | .startView msg => r.handleStartView c app msg

end VRReplica

end LedgerDatabase.Distributed.Vr
