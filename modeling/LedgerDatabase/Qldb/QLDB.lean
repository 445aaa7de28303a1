import LedgerDatabase.Ledgerdb.MerkleTree
import LedgerDatabase.Qldb.BTree

/-!
# The ledger `qldb`

`set` is `QLDB::Set`: a block of documents is hashed into a Merkle tree over the documents, the
previous block's hash and the hashes of a statement and an address record (`calculateBlockHash`),
and the block hash into the tree over all blocks (`calculateDigest`).  Both trees are stored as the
concatenations of the children of every node.  `getProof` collects the siblings on the way from a
document to the digest, and `QLProofResult::Verify` follows them (`verify`).

The documents are indexed by their keys in one B+ tree and by key and version in another one.  Both
belong to the store and not to a ledger: `GetCommitted`, `Range`, `GetVersion` and `GetHistory` take
the name of a ledger and do not use it.

`Set` hashes two buffers that it does not fill.  What is in them before is a parameter (`Env`), like
the time.
-/

namespace LedgerDatabase.Qldb

open Chunk
open Ledgerdb.MerkleTree (hashPair hashOne)

variable (H : Bytes → Hash)

/-- What a call of `Set` finds outside the store. -/
structure Env where
  /-- The clock, in milliseconds. -/
  now : UInt64
  /-- The bytes of `stmt` before anything is copied there. -/
  stmt : ℕ → UInt8
  /-- The bytes of `addr` before anything is copied there. -/
  addr : ℕ → UInt8

/-- A buffer of `n` bytes. -/
def buffer (raw : ℕ → UInt8) (n : ℕ) : Bytes := (List.range n).map raw

/-- `memcpy(buf + off, src.data(), src.size())`. -/
def memcpy (buf : Bytes) (off : ℕ) (src : Bytes) : Bytes :=
  buf.take off ++ src ++ buf.drop (off + src.length)

/-- The hash of the twenty bytes at offset `off` of a string. -/
def hashAt (s : Bytes) (off : ℕ) : Hash where
  bytes := readBytes s off kByteLength
  length_bytes := length_readBytes ..

/-! ### Proofs -/

/-- `QLProofResult`; the value that `return {}` makes has empty fields. -/
structure QLProofResult where
  data : Data := ⟨[], []⟩
  addr : BlockAddress := ⟨[], 0⟩
  metadata : MetaData := ⟨0, 0, 0⟩
  proof : List Bytes := []
  pos : List ℕ := []
  deriving DecidableEq, Repr

namespace QLProofResult

/-- One round of `Verify`: the bytes of the node above `h`. -/
def node (h : Hash) (sibling : Bytes) (pos : Except Fault ℕ) : Except Fault Bytes :=
  if sibling = [] then .ok h.bytes
  else do
    if (← pos) = 0 then return (Hash.fromBase32 sibling).bytes ++ h.bytes
    else return h.bytes ++ (Hash.fromBase32 sibling).bytes

/-- The loop of `Verify`, from index `i` on. -/
def climb (pos : List ℕ) : (i : ℕ) → List Bytes → Hash → Except Fault Hash
  | _, [], h => .ok h
  | i, sibling :: rest, h => do
    let node ← node h sibling (at? pos i)
    climb pos (i + 1) rest (H node)

/-- `QLProofResult::Verify`. -/
def verify (r : QLProofResult) (digest : Hash) : Except Fault Bool := do
  let doc ← Document.encode r.data.key r.data.val r.addr r.metadata
  let docHash ← climb H r.pos 0 r.proof (Chunk.hash H doc)
  return docHash == digest

end QLProofResult

/-! ### The ledger -/

/-- `DigestInfo`. -/
structure DigestInfo where
  tip : ℕ
  digest : Bytes
  deriving DecidableEq, Repr

/-- `QLDB`. -/
structure QLDB where
  db : DB
  indexed : QLBTree
  history : QLBTree
  deriving DecidableEq

namespace QLDB

/-- `QLDB(dbpath)`, for the store that is found there. -/
def ofDB (db : DB) : Except Fault QLDB := do
  let (indexed, db) ← QLBTree.ofDB db (str "COMMITTED_")
  let (history, db) ← QLBTree.ofDB db (str "HISTORY_")
  return { db, indexed, history }

/-- `CreateLedger`. -/
def createLedger (q : QLDB) (name : Bytes) : QLDB := { q with db := q.db.putString name (str "0") }

/-! ### Reading -/

/-- `GetCommitted`; `none` is a chunk without a head. -/
def getCommitted (q : QLDB) (_name key : Bytes) : Except Fault (Option Bytes × QLDB) := do
  let (result, db) ← q.indexed.get key q.db
  return (result, { q with db })

/-- `Range`. -/
def range (q : QLDB) (_name start stop : Bytes) : Except Fault (StdMap Bytes × QLDB) := do
  let (result, db) ← q.indexed.range start stop q.db
  return (result, { q with db })

/-- `key + "|" + std::to_string(version)`. -/
def historyKey (key : Bytes) (version : ℕ) : Bytes := key ++ str "|" ++ toDecimal version

/-- `GetVersion`. -/
def getVersion (q : QLDB) (_name key : Bytes) (version : ℕ) :
    Except Fault (Option Bytes × QLDB) := do
  let (result, db) ← q.history.get (historyKey key version) q.db
  return (result, { q with db })

/-- The loop of `GetHistory`, with `i` going down and `left` documents still wanted. -/
def historyLoop (name key : Bytes) : (i left : ℕ) → QLDB →
    Except Fault (List (Option Bytes) × QLDB)
  | 0, _, q => .ok ([], q)
  | _ + 1, 0, q => .ok ([], q)
  | i + 1, left + 1, q => do
    let (result, q) ← q.getVersion name key i
    let (rest, q) ← historyLoop name key i left q
    return (result :: rest, q)

/-- `GetHistory`. -/
def getHistory (q : QLDB) (name key : Bytes) (n : ℕ) :
    Except Fault (List (Option Bytes) × QLDB) := do
  let (result, q) ← q.getCommitted name key
  let doc := Document.ofChunk (← deref result)
  let (rest, q) ← historyLoop name key doc.metadata.version n q
  return (result :: rest, q)

/-! ### Writing -/

/-- `name + "|" + std::to_string(seqno)`. -/
def blockKey (name : Bytes) (seqno : ℕ) : Bytes := name ++ str "|" ++ toDecimal seqno

/-- `"digest_" + name`. -/
def digestKey (name : Bytes) : Bytes := str "digest_" ++ name

/-- The name of a node in the tree over a block. -/
def blockNodeKey (name : Bytes) (seqno level i : ℕ) : Bytes :=
  str "proof_" ++ name ++ str "|" ++ toDecimal seqno ++ str "|" ++ toDecimal level ++ str "|" ++
    toDecimal i

/-- The name of a node in the tree over the blocks. -/
def digestNodeKey (name : Bytes) (level i : ℕ) : Bytes :=
  str "proof_" ++ name ++ str "|" ++ toDecimal level ++ str "|" ++ toDecimal i

/-- The loop over a level in `calculateBlockHash`, from index `i` on. -/
def blockLevel (name : Bytes) (seqno level : ℕ) : (i : ℕ) → List Hash → DB → List Hash × DB
  | _, [], db => ([], db)
  | i, [h], db => ([hashOne H h], db.putString (blockNodeKey name seqno level i) h.bytes)
  | i, h :: h' :: rest, db =>
    let (hashes, db) := blockLevel name seqno level (i + 1) rest
      (db.putString (blockNodeKey name seqno level i) (h.bytes ++ h'.bytes))
    (hashPair H h h' :: hashes, db)

/-- The loop over the levels; a level is at least halved in each of at most `fuel` rounds. -/
def blockLevels (name : Bytes) (seqno : ℕ) : (fuel level : ℕ) → List Hash → DB →
    Except Fault (Hash × DB)
  | 0, _, _, _ => .error .diverges
  | fuel + 1, level, current, db =>
    if 0 < current.length - 1 then
      let (current, db) := blockLevel H name seqno (level + 1) 0 current db
      blockLevels name seqno fuel (level + 1) current db
    else do return (← at? current 0, db)

/-- `calculateBlockHash`. -/
def calculateBlockHash (proof : List Hash) (name : Bytes) (seqno : ℕ) (db : DB) :
    Except Fault (Hash × DB) :=
  blockLevels H name seqno proof.length 0 proof db

/-- The loop of `calculateDigest`. -/
def digestLoop (prevBlockHash : Hash) (name : Bytes) : (fuel level lastSeqno : ℕ) → Hash → DB →
    Except Fault (Hash × DB)
  | 0, _, _, _, _ => .error .diverges
  | fuel + 1, level, lastSeqno, currHash, db =>
    if 0 < lastSeqno then
      let level := level + 1
      let prLast := lastSeqno / 2
      let key := digestNodeKey name level prLast
      let node :=
        if lastSeqno % 2 = 0 then currHash.bytes
        else
          let prevHash :=
            if level = 1 then prevBlockHash
            else
              let prevNode := (db.getString (digestNodeKey name (level - 1) (lastSeqno - 1))).getD []
              H (readBytes prevNode 0 (kByteLength * 2))
          prevHash.bytes ++ currHash.bytes
      digestLoop prevBlockHash name fuel level prLast (H node) (db.putString key node)
    else .ok (currHash, db)

/-- `calculateDigest`. -/
def calculateDigest (blockHash prevBlockHash : Hash) (name : Bytes) (seqno : ℕ) (db : DB) :
    Except Fault DB := do
  let (currHash, db) ← digestLoop H prevBlockHash name (seqno + 1) 0 seqno blockHash db
  return db.putString (digestKey name) currHash.toBase32

/-- The number and the previous hash of the next block, from the string under `name`.  Without a
separator `npos + 1` is zero. -/
def nextBlock (tip : Bytes) : Except Fault (ℕ × Hash) :=
  if tip = [] then .ok (0, H (str "0"))
  else do
    let tokenIdx := find tip 124
    let oldSeqno ← stoul (← substr tip 0 tokenIdx)
    return (oldSeqno + 1, Hash.fromBase32 (← substrFrom tip ((tokenIdx + 1) % 2 ^ 64)))

/-- The version of the next document of a key. -/
def nextVersion : Option Bytes → ℕ
  | none => 0
  | some latest => (Document.ofChunk latest).metadata.version + 1

/-- The loop of `Set` that creates the documents, from index `i` on: each with the name under which
the history keeps it. -/
def createDocuments (name : Bytes) (seqno : ℕ) (now : UInt64) : (i : ℕ) → List (Bytes × Bytes) →
    QLDB → Except Fault (List (Bytes × Bytes) × QLDB)
  | _, [], q => .ok ([], q)
  | i, (key, val) :: rest, q => do
    let (latest, q) ← q.getCommitted name key
    let version := nextVersion latest
    let document ← Document.encode key val ⟨name, seqno⟩ ⟨i, version, now.toNat⟩
    let (documents, q) ← createDocuments name seqno now (i + 1) rest q
    return ((historyKey key version, document) :: documents, q)

/-- The buffer `stmt`: the time is copied over the type. -/
def stmtBytes (env : Env) : Bytes :=
  memcpy (memcpy (buffer env.stmt 9) 0 [0]) 0 (leBytes 8 env.now.toNat)

/-- The buffer `addr`: the number is copied over the name, and the time over the number. -/
def addrBytes (name : Bytes) (seqno : ℕ) (env : Env) : Bytes :=
  let addr := memcpy (buffer env.addr (name.length + 16)) 0 name
  let addr := memcpy addr 0 (leBytes 8 seqno)
  memcpy addr 0 (leBytes 8 env.now.toNat)

/-- The hashes under a block: its documents, the previous block, the statement and the address. -/
def blockLeaves (documents : List Bytes) (prevHash : Hash) (name : Bytes) (seqno : ℕ) (env : Env) :
    List Hash :=
  documents.map (Chunk.hash H) ++ [prevHash, H (stmtBytes env), H (addrBytes name seqno env)]

/-- `Set`, once the sizes are checked. -/
def addBlock (cfg : BPlusConfig) (q : QLDB) (name : Bytes) (entries : List (Bytes × Bytes))
    (env : Env) : Except Fault QLDB := do
  let tip := (q.db.getString name).getD []
  let (seqno, prevHash) ← nextBlock H tip
  let (created, q) ← createDocuments name seqno env.now 0 entries q
  let documents := created.map Prod.snd
  let (_, indexed, db) ← q.indexed.set cfg ((entries.map Prod.fst).zip documents) q.db
  let (_, history, db) ← q.history.set cfg created db
  let (blockHash, db) ←
    calculateBlockHash H (blockLeaves H documents prevHash name seqno env) name seqno db
  let db ← calculateDigest H blockHash prevHash name seqno db
  let block ← QLBlock.encode ⟨name, seqno⟩ ⟨0, env.now.toNat⟩ env.now.toNat blockHash prevHash
    documents
  let db := db.putChunk (blockKey name seqno) block
  let db := db.putString name (toDecimal seqno ++ str "|" ++ blockHash.toBase32)
  return { db, indexed, history }

/-- `Set`. -/
def set (cfg : BPlusConfig) (q : QLDB) (name : Bytes) (keys vals : List Bytes) (env : Env) :
    Except Fault (Bool × QLDB) :=
  if keys.length ≠ vals.length then .ok (false, q)
  else if keys.length = 0 then .ok (true, q)
  else do return (true, ← addBlock H cfg q name (keys.zip vals) env)

/-! ### Digest and proofs -/

/-- `digest`. -/
def digest (q : QLDB) (name : Bytes) : Except Fault DigestInfo := do
  let digest := (q.db.getString (digestKey name)).getD []
  let tip := (q.db.getString name).getD []
  if tip = [] then return ⟨0, digest⟩
  else return ⟨← stoul (← substr tip 0 (find tip 124)), digest⟩

/-- A loop of `getProof`: the siblings and positions on the way up from `currSeq`, where `last` is
the last index of the level and `nodeKey` names the nodes above. -/
def siblings (db : DB) (nodeKey : (level i : ℕ) → Bytes) : (fuel level currSeq last : ℕ) →
    Except Fault (List Bytes × List ℕ)
  | 0, _, _, _ => .error .diverges
  | fuel + 1, level, currSeq, last =>
    if 0 < last then do
      let level := level + 1
      let prSeq := currSeq / 2
      let prSeqIdx := 1 - currSeq % 2
      let sibling :=
        -- a last node without a neighbour has no sibling
        if currSeq = last ∧ last % 2 = 0 then []
        else
          let nodestr := (db.getString (nodeKey level prSeq)).getD []
          (hashAt nodestr (kByteLength * prSeqIdx)).toBase32
      let (proof, pos) ← siblings db nodeKey fuel level prSeq (last / 2)
      return (sibling :: proof, prSeqIdx :: pos)
    else return ([], [])

/-- `getProof`. -/
def getProof (q : QLDB) (name : Bytes) (tip blockAddr docSeq : ℕ) :
    Except Fault (QLProofResult × QLDB) :=
  if tip < blockAddr then .ok ({}, q)
  else do
    let (block, db) := q.db.getChunk (blockKey name blockAddr)
    let q := { q with db }
    let qb := QLBlock.ofChunk (← deref block)
    let docSize := qb.getDocumentSize + 2
    if docSize < docSeq then return ({}, q)
    let doc := Document.ofChunk (← qb.getDocumentBySeq docSeq)
    let (proof, pos) ← siblings q.db (blockNodeKey name blockAddr) (docSize + 1) 0 docSeq docSize
    let (proof', pos') ← siblings q.db (digestNodeKey name) (tip + 1) 0 blockAddr tip
    return ({ data := doc.data, addr := doc.addr, metadata := doc.metadata,
              proof := proof ++ proof', pos := pos ++ pos' }, q)

end QLDB

end LedgerDatabase.Qldb
