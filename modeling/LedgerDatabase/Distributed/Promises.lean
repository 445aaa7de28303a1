import LedgerDatabase.Distributed.ShardClient
import LedgerDatabase.Library.Run
import LedgerDatabase.Library.SortedMap

/-!
# The promises of a shard client

Which promise a callback of `ShardClient` completes.  The requests of transactions share the slot
`waiting`, verification requests have a table of promises by number, and `VRClient` keeps what is
to be done with the reply to a request or when its time is over.

A call of a method posts a function to the event loop of the transport, which runs it later; replies
and timeouts are events of the same loop.  `Client` has at most one request of a transaction
outstanding at a shard: it waits for the promise of the request, and `Begin` waits until a commit or
an abort has been answered.  Calls are numbered, and the promise given to a call has its number.
The fields `calls`, `issued`, `timedOut` and `completions` record what has happened; only the
rule that `Client` follows reads them.
-/

namespace LedgerDatabase.Distributed

/-- The variants that the sources can be built for. -/
inductive Build
  | ledgerdb
  | sqlledger
  | amzqldb
  deriving DecidableEq, Repr

/-- `REPLY_OK`. -/
def replyOk : Int32 := 0

/-- A request of a transaction.  `Client` gives a promise to all of them but, in some of its methods,
to `Commit` and `Abort`. -/
inductive TxnCall
  | batchGet
  | getRange
  | prepare
  | commit (promised : Bool)
  | abort (promised : Bool)
  deriving DecidableEq, Repr

namespace TxnCall

/-- Whether the promise is not `NULL`. -/
def promised : TxnCall → Bool
  | commit promised | abort promised => promised
  | _ => true

/-- Whether the call makes a promise `blockingBegin` for the next `Begin`. -/
def blocksBegin : TxnCall → Bool
  | commit _ | abort _ => true
  | _ => false

/-- Whether the request goes through `InvokeUnlogged`, and can time out. -/
def unlogged : TxnCall → Bool
  | batchGet | getRange => true
  | _ => false

end TxnCall

/-- A verification request. -/
inductive VerifyCall
  | getProof (block : ℕ)
  | audit (seq : ℕ)
  deriving DecidableEq, Repr

/-- A function that a call has posted: what to send for a transaction, or a verification request. -/
structure Posted where
  call : ℕ
  txn : Option TxnCall
  deriving DecidableEq, Repr

/-- The continuation of a request. -/
inductive Continuation
  | txn (txn : TxnCall)
  /-- `GetProofCallback` or `AuditCallback`, with the number of the promise. -/
  | verify (uid : ℕ)
  deriving DecidableEq, Repr

namespace Continuation

/-- The request of a transaction. -/
def txn? : Continuation → Option TxnCall
  | txn t => some t
  | verify _ => none

/-- Whether the request is a `PendingUnloggedRequest`, whose error continuation is `GetTimeout`. -/
def unlogged : Continuation → Bool
  | txn t => t.unlogged
  | verify _ => true

end Continuation

/-- `PendingRequest`, with the call that it was made for. -/
structure PendingRequest where
  call : ℕ
  continuation : Continuation
  deriving DecidableEq, Repr

/-- Why a promise is completed. -/
inductive Cause
  /-- The reply to the request of a call. -/
  | reply (call : ℕ)
  /-- The timeout of the request of a call. -/
  | timeout (call : ℕ)
  /-- The call itself, which sends no request. -/
  | refusal (call : ℕ)
  deriving DecidableEq, Repr

/-- The call behind a cause. -/
def Cause.call : Cause → ℕ
  | reply call | timeout call | refusal call => call

/-- A call of `Promise::Reply`. -/
structure Completed where
  promise : ℕ
  cause : Cause
  deriving DecidableEq, Repr

/-- `ShardClient`, its `VRClient` and the functions posted to the transport. -/
structure ShardState extends ShardClient where
  waiting : Option ℕ := none
  /-- `blockingBegin`, and whether it has been completed. -/
  blockingBegin : Option Bool := none
  uid : ℕ := 0
  lastReqId : ℕ := 0
  pendingReqs : SortedMap ℕ PendingRequest := .empty
  timers : List Posted := []
  /-- The number of calls so far. -/
  calls : ℕ := 0
  /-- The promises given to requests of transactions. -/
  issued : List ℕ := []
  /-- The calls whose requests timed out. -/
  timedOut : List ℕ := []
  completions : List Completed := []
  deriving DecidableEq

namespace ShardState

/-- The promises that are completed. -/
def completed (s : ShardState) : List ℕ := s.completions.map (·.promise)

/-- `Promise::Reply`. -/
def complete (s : ShardState) (promise : ℕ) (cause : Cause) : ShardState :=
  { s with completions := s.completions ++ [⟨promise, cause⟩] }

/-- No request of a transaction is outstanding. -/
def Idle (s : ShardState) : Prop :=
  (∀ promise ∈ s.issued, promise ∈ s.completed) ∧ s.blockingBegin ≠ some false

instance (s : ShardState) : Decidable s.Idle := inferInstanceAs (Decidable (_ ∧ _))

/-! ### Callbacks -/

/-- The end of every callback of a transaction: the promise in `waiting` is completed. -/
def replyWaiting (s : ShardState) (cause : Cause) : ShardState :=
  match s.waiting with
  | none => s
  | some w => { s with waiting := none }.complete w cause

/-- `ShardClient::GetTimeout`. -/
def getTimeout (s : ShardState) (call : ℕ) : ShardState := s.replyWaiting (.timeout call)

/-- `tip_block = reply.digest().block()`, when somebody waits. -/
def updateTip (build : Build) (reply : Reply) (s : ShardState) : ShardState :=
  if s.waiting.isSome ∧ build ≠ .amzqldb then { s with tipBlock := sizeOfInt64 reply.digest.block }
  else s

/-- `ShardClient::BatchGetCallback` and `GetRangeCallback`. -/
def batchGetCallback (build : Build) (call : ℕ) (reply : Reply) (s : ShardState) : ShardState :=
  (s.updateTip build reply).replyWaiting (.reply call)

/-- `ShardClient::PrepareCallback`. -/
def prepareCallback (call : ℕ) (s : ShardState) : ShardState := s.replyWaiting (.reply call)

/-- The assertions of `CommitCallback` and `AbortCallback`, and `blockingBegin->Reply(0)`. -/
def unblockBegin (reply : Reply) (s : ShardState) : Option ShardState :=
  if reply.status = replyOk ∧ s.blockingBegin.isSome then some { s with blockingBegin := some true }
  else none

/-- `ShardClient::CommitCallback`. -/
def commitCallback (build : Build) (call : ℕ) (reply : Reply) (s : ShardState) : Option ShardState :=
  (s.unblockBegin reply).map fun s => (s.updateTip build reply).replyWaiting (.reply call)

/-- `ShardClient::AbortCallback`. -/
def abortCallback (call : ℕ) (reply : Reply) (s : ShardState) : Option ShardState :=
  (s.unblockBegin reply).map fun s => s.replyWaiting (.reply call)

/-- `ShardClient::GetProofCallback` and `AuditCallback`, without the checks of the proofs. -/
def verifyCallback (uid call : ℕ) (reply : Reply) (s : ShardState) : ShardState :=
  match s.verifyPromise.lookup uid with
  | none =>
    -- `operator[]` enters `NULL` for a missing number
    { s with verifyPromise := (uid, none) :: s.verifyPromise }
  | some none => s
  | some (some w) =>
    { s with
      verifyPromise := s.verifyPromise.filter fun e => e.1 != uid
      tipBlock := sizeOfInt64 reply.digest.block }.complete w (.reply call)

/-- The callback of a request. -/
def callback (build : Build) (reply : Reply) (req : PendingRequest) (s : ShardState) :
    Option ShardState :=
  match req.continuation with
  | .txn .batchGet | .txn .getRange => some (s.batchGetCallback build req.call reply)
  | .txn .prepare => some (s.prepareCallback req.call)
  | .txn (.commit _) => s.commitCallback build req.call reply
  | .txn (.abort _) => s.abortCallback req.call reply
  | .verify uid => some (s.verifyCallback uid req.call reply)

/-! ### `VRClient` -/

/-- `VRClient::Invoke` and `InvokeUnlogged`; a request that cannot be sent is not kept. -/
def invoke (sent : Bool) (req : PendingRequest) (s : ShardState) : ShardState :=
  let reqId := s.lastReqId + 1
  { s with
    lastReqId := reqId
    pendingReqs := if sent then s.pendingReqs.assign reqId req else s.pendingReqs }

/-- `pendingReqs.erase`. -/
def erase (reqId : ℕ) (s : ShardState) : ShardState :=
  { s with pendingReqs := s.pendingReqs.erase reqId }

/-- `VRClient::HandleReply` and `HandleUnloggedReply`. -/
def handleReply (build : Build) (reqId : ℕ) (reply : Reply) (s : ShardState) : Option ShardState :=
  match s.pendingReqs.lookup reqId with
  | none => some s
  | some req => (s.erase reqId).callback build reply req

/-- `VRClient::UnloggedRequestTimeoutCallback`. -/
def unloggedRequestTimeoutCallback (reqId : ℕ) (s : ShardState) : Option ShardState :=
  match s.pendingReqs.lookup reqId with
  | none => some s
  | some req =>
    if req.continuation.unlogged then
      some (({ s.erase reqId with timedOut := s.timedOut ++ [req.call] } : ShardState).getTimeout
        req.call)
    else none

/-- `VRClient::ResendRequest`. -/
def resendRequest (reqId : ℕ) (sent : Bool) (s : ShardState) : Option ShardState :=
  match s.pendingReqs.lookup reqId with
  | none => some s
  | some req =>
    if req.continuation.unlogged then none else some (if sent then s else s.erase reqId)

/-! ### Calls -/

/-- `BatchGet`, `GetRange`, `Prepare`, `Commit` and `Abort` of `ShardClient`. -/
def callTxn (t : TxnCall) (s : ShardState) : ShardState :=
  { s with
    calls := s.calls + 1
    issued := if t.promised then s.issued ++ [s.calls] else s.issued
    blockingBegin := if t.blocksBegin then some false else s.blockingBegin
    timers := s.timers ++ [⟨s.calls, some t⟩] }

/-- A verification request is posted. -/
def postVerify (s : ShardState) : ShardState :=
  { s with calls := s.calls + 1, timers := s.timers ++ [⟨s.calls, none⟩] }

/-- `ShardClient::GetProof` and `Audit`.  A block that the shard has not reported yet is not asked
for. -/
def callVerify (v : VerifyCall) (s : ShardState) : ShardState :=
  match v with
  | .getProof block =>
    if s.tipBlock < block then
      { s with calls := s.calls + 1 }.complete s.calls (.refusal s.calls)
    else s.postVerify
  | .audit _ => s.postVerify

/-- `ShardClient::Begin`, which waits for `blockingBegin`. -/
def begin (s : ShardState) : Option ShardState :=
  match s.blockingBegin with
  | none => some s
  | some true => some { s with blockingBegin := none }
  | some false => none

/-- `verifyPromise.emplace(uid, promise)`. -/
def emplacePromise (promise : ℕ) (s : ShardState) : ShardState :=
  { s with
    verifyPromise :=
      if (s.verifyPromise.lookup s.uid).isSome then s.verifyPromise
      else (s.uid, some promise) :: s.verifyPromise }

/-- The function that a call has posted. -/
def fire (posted : Posted) (sent : Bool) (s : ShardState) : ShardState :=
  match posted.txn with
  | some t =>
    { s with waiting := if t.promised then some posted.call else none }.invoke sent
      ⟨posted.call, .txn t⟩
  | none =>
    { s.emplacePromise posted.call with uid := s.uid + 1 }.invoke sent ⟨posted.call, .verify s.uid⟩

/-! ### Runs -/

/-- What can happen next.  `sent` says whether the transport could send a request. -/
inductive Label
  | txn (t : TxnCall)
  | verify (v : VerifyCall)
  | begin
  | timer (i : ℕ) (sent : Bool)
  | reply (reqId : ℕ) (reply : Reply)
  | timeout (reqId : ℕ)
  | resend (reqId : ℕ) (sent : Bool)
  deriving DecidableEq

/-- The step with a label, if it can be taken. -/
def step (build : Build) (s : ShardState) : Label → Option ShardState
  | .txn t => if s.Idle then some (s.callTxn t) else none
  | .verify v => some (s.callVerify v)
  | .begin => s.begin
  | .timer i sent =>
    s.timers[i]?.map fun posted => { s with timers := s.timers.eraseIdx i }.fire posted sent
  | .reply reqId reply => s.handleReply build reqId reply
  | .timeout reqId => s.unloggedRequestTimeoutCallback reqId
  | .resend reqId sent => s.resendRequest reqId sent

/-- **Every promise goes its own way**: it is completed at most once, by its own call and its own
request only, and by the timeout of its request. -/
structure Routed (s : ShardState) : Prop where
  once : s.completed.Nodup
  own : ∀ c ∈ s.completions, c.promise = c.cause.call
  timeout : ∀ call ∈ s.timedOut, ⟨call, .timeout call⟩ ∈ s.completions

/-- The step is not the timeout of a verification request. -/
def NoVerifyTimeout (s : ShardState) : Label → Prop
  | .timeout reqId => ∀ req ∈ s.pendingReqs.lookup reqId, req.continuation.txn?.isSome
  | _ => True

instance (s : ShardState) : (l : Label) → Decidable (s.NoVerifyTimeout l)
  | .timeout reqId =>
    inferInstanceAs (Decidable (∀ req ∈ s.pendingReqs.lookup reqId, req.continuation.txn?.isSome))
  | .txn _ | .verify _ | .begin | .timer _ _ | .reply _ _ | .resend _ _ => .isTrue trivial

end ShardState

end LedgerDatabase.Distributed
