import LedgerDatabase.Common.Bytes
import LedgerDatabase.Library.Frames

/-!
# Messages on a TCP connection

`TCPTransport`, as far as it frames messages: `sendMessageInternal` is
`TCPTransport::SendMessageInternal`, and `tcpReadableCallback` is
`TCPTransport::TCPReadableCallback`.
A frame is

`| MAGIC (4) | totalLen (8) | typeLen (8) | type | dataLen (8) | data |`.

A `bufferevent` is a number here.  Its output is the queue of the bytes that were written to it, and
its input is the queue of the bytes that arrived and have not been taken.
-/

namespace LedgerDatabase.Distributed

/-- `MAGIC`. -/
def magic : ℕ := 0x06121983

/-- `ASSERT`. -/
def assert (p : Prop) [Decidable p] : Except Fault Unit := if p then .ok () else .error .assertion

/-- What the transport knows of a `Message`: `GetTypeName` and `SerializeAsString`. -/
structure Message where
  type : Bytes
  data : Bytes
  deriving DecidableEq, Repr

namespace Message

/-- `totalLen`. -/
def totalLen (m : Message) : ℕ := m.type.length + 8 + m.data.length + 8 + 8 + 4

/-- What is written into `buf`. -/
def frame (m : Message) : Bytes :=
  leBytes 4 magic ++ (leBytes 8 m.totalLen ++ (leBytes 8 m.type.length ++ (m.type ++
    (leBytes 8 m.data.length ++ m.data))))

end Message

/-- The connections of a `TCPTransport` over addresses `α`. -/
structure TCPTransport (α : Type) where
  tcpOutgoing : α → Option ℕ
  tcpAddresses : ℕ → Option α
  /-- The buffer events whose input goes to `TCPReadableCallback`. -/
  events : List ℕ
  /-- Such an event has an address. -/
  known : ∀ bev ∈ events, (tcpAddresses bev).isSome
  /-- What has been written to each of the events. -/
  output : ℕ → Bytes

namespace TCPTransport

variable {α : Type}

/-- The transport before it is connected. -/
def empty : TCPTransport α :=
  { tcpOutgoing := fun _ => none
    tcpAddresses := fun _ => none
    events := []
    known := fun _ h => nomatch h
    output := fun _ => [] }

variable [DecidableEq α]

/-- The end of `ConnectTCP` and of `TCPAcceptCallback`: `insert` keeps an address that is there. -/
def register (t : TCPTransport α) (bev : ℕ) (addr : α) : TCPTransport α :=
  { t with
    tcpOutgoing := Function.update t.tcpOutgoing addr (some bev)
    tcpAddresses :=
      Function.update t.tcpAddresses bev (some ((t.tcpAddresses bev).getD addr))
    events := bev :: t.events
    known := by
      intro b hb
      by_cases hbev : b = bev
      · rw [hbev, Function.update_self]
        rfl
      · rw [Function.update_of_ne hbev]
        exact t.known b ((List.mem_cons.mp hb).resolve_left hbev) }

/-- `TCPTransport::ConnectTCP`, where `bev` is the new event, or `none` when there is no server. -/
def connectTCP (t : TCPTransport α) (bev : Option ℕ) (dst : α) : TCPTransport α :=
  match bev with
  | none => t
  | some bev => t.register bev dst

/-- `bufferevent_write`. -/
def write (t : TCPTransport α) (ev : ℕ) (buf : Bytes) : TCPTransport α :=
  { t with output := Function.update t.output ev (t.output ev ++ buf) }

/-- The assertions while the buffer is filled, with the value of `ptr - buf` at each of them. -/
def fill (m : Message) : Except Fault Bytes := do
  assert (4 < m.totalLen)
  assert (12 < m.totalLen)
  assert (20 < m.totalLen)
  assert (20 + m.type.length < m.totalLen)
  assert (28 + m.type.length < m.totalLen)
  assert (28 + m.type.length + m.data.length = m.totalLen)
  return m.frame

/-- `TCPTransport::SendMessageInternal`; `bev` is the event that `ConnectTCP` may open. -/
def sendMessageInternal (t : TCPTransport α) (bev : Option ℕ) (dst : α) (m : Message) :
    Except Fault (TCPTransport α) :=
  let t := if (t.tcpOutgoing dst).isNone then t.connectTCP bev dst else t
  match t.tcpOutgoing dst with
  | none => .error .dangling
  | some ev => do
    let buf ← fill m
    return t.write ev buf

/-- `n` bytes of the buffer from `off` on. -/
def copy (buf : Bytes) (off n : ℕ) : Except Fault Bytes :=
  if off + n ≤ buf.length then .ok ((buf.drop off).take n) else .error .outOfRange

/-- The part of a frame behind its length: the type and the data. -/
def parse (buf : Bytes) (totalSize : ℕ) : Except Fault Message := do
  let typeLen := leNat (← copy buf 12 8)
  assert (20 < totalSize)
  assert ((20 + typeLen) % 2 ^ 64 < totalSize)
  let msgType ← copy buf 20 typeLen
  let msgLen := leNat (← copy buf (20 + typeLen) 8)
  assert (28 + typeLen < totalSize)
  assert ((28 + typeLen + msgLen) % 2 ^ 64 ≤ totalSize)
  let msg ← copy buf (28 + typeLen) msgLen
  return ⟨msgType, msg⟩

/-- One round of the loop of `TCPReadableCallback`: the message to dispatch with its address, and
the input behind it; `none` is a `return`. -/
def readFrame (addr : Option α) : Frames.Next Fault UInt8 (α × Message) := fun evbuf =>
  if evbuf.length < 4 then .ok none else do
  assert (leNat (evbuf.take 4) = magic)
  if evbuf.length < 12 then return none
  let totalSize := leNat ((evbuf.drop 4).take 8)
  assert (totalSize < 1073741826)
  if evbuf.length < totalSize then return none
  let m ← parse (evbuf.take totalSize) totalSize
  match addr with
  | none => .error .assertion
  | some addr => return some ((addr, m), evbuf.drop totalSize)

/-- `TCPTransport::TCPReadableCallback` after an arrival: the messages that have been dispatched,
and the input that is left. -/
def tcpReadableCallback (t : TCPTransport α) (bev : ℕ) :
    Frames.Received UInt8 (α × Message) → Bytes → Except Fault (Frames.Received UInt8 (α × Message)) :=
  Frames.feed .diverges (readFrame (t.tcpAddresses bev))

/-- The messages that are sent on a connection. -/
def sendAll (t : TCPTransport α) (bev : Option ℕ) (dst : α) (ms : List Message) :
    Except Fault (TCPTransport α) :=
  ms.foldlM (fun t m => t.sendMessageInternal bev dst m) t

/-- The arrivals on a connection. -/
def receiveAll (t : TCPTransport α) (bev : ℕ) (arrivals : List Bytes) :
    Except Fault (Frames.Received UInt8 (α × Message)) :=
  arrivals.foldlM (t.tcpReadableCallback bev) ([], [])

end TCPTransport

end LedgerDatabase.Distributed
