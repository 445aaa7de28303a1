import LedgerDatabase.Common.Bytes

/-!
# Records of the ledger

`CommitInfo`, `DigestInfo` and `BlockData`, and the strings they are stored as.
-/

namespace LedgerDatabase.Ledgerdb

/-- `CommitInfo`. -/
structure CommitInfo where
  commitSeq : ℕ
  prevDigest : Bytes
  tipBlock : ℕ
  mtroot : Bytes
  mtrootkey : Bytes
  mptroot : Bytes
  deriving DecidableEq, Repr

namespace CommitInfo

/-- `CommitInfo(std::string)`. -/
def ofString (s : Bytes) : Except Fault CommitInfo := do
  let items := splitBy s 124
  let commitSeq ← stoul (← at? items 0)
  let prevDigest ← at? items 1
  let tipBlock ← stoul (← at? items 2)
  let mtroot ← at? items 3
  let mtrootkey ← at? items 4
  let mptroot ← at? items 5
  return { commitSeq, prevDigest, tipBlock, mtroot, mtrootkey, mptroot }

/-- `CommitInfo::ToString`. -/
def toBytes (c : CommitInfo) : Bytes :=
  toDecimal c.commitSeq ++ str "|" ++ c.prevDigest ++ str "|" ++ toDecimal c.tipBlock ++ str "|" ++
    c.mtroot ++ str "|" ++ c.mtrootkey ++ str "|" ++ c.mptroot

end CommitInfo

/-- `DigestInfo`. -/
structure DigestInfo where
  commitSeq : ℕ
  tipBlock : ℕ
  digest : Bytes
  deriving DecidableEq, Repr

namespace DigestInfo

/-- `DigestInfo(std::string)`. -/
def ofString (s : Bytes) : Except Fault DigestInfo := do
  let items := splitBy s 124
  let commitSeq ← stoul (← at? items 0)
  let tipBlock ← stoul (← at? items 1)
  let digest ← at? items 2
  return { commitSeq, tipBlock, digest }

/-- `DigestInfo::ToString`. -/
def toBytes (d : DigestInfo) : Bytes :=
  toDecimal d.commitSeq ++ str "|" ++ toDecimal d.tipBlock ++ str "|" ++ d.digest

end DigestInfo

/-- `BlockData`. -/
structure BlockData where
  keys : List Bytes
  vals : List Bytes
  deriving DecidableEq, Repr

namespace BlockData

/-- The loop of `ToString`; `vals` is indexed along with the keys. -/
def join : List Bytes → List Bytes → Except Fault Bytes
  | [], _ => .ok []
  | _ :: _, [] => .error .outOfRange
  | key :: keys, val :: vals => do
    return str "/" ++ key ++ str "|" ++ val ++ (← join keys vals)

/-- `BlockData::ToString`.  The result of `substr` is not used, but it throws on an empty string. -/
def toBytes (b : BlockData) : Except Fault Bytes := do
  let res ← join b.keys b.vals
  let _ ← substrFrom res 1
  return res

/-- `BlockData(std::string)`: for every piece between slashes, the whole string is split again. -/
def ofString (s : Bytes) : Except Fault BlockData := do
  let kvs ← (splitBy s 47).mapM fun _ => do
    let items := splitBy s 124
    return (← at? items 0, ← at? items 1)
  return { keys := kvs.map (·.1), vals := kvs.map (·.2) }

end BlockData

end LedgerDatabase.Ledgerdb
