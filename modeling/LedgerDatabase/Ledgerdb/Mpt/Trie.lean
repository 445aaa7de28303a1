import LedgerDatabase.Common.DB
import LedgerDatabase.Ledgerdb.Mpt.Node

/-!
# The Merkle Patricia trie

The classes `Trie`, `MPTDelta` and `MPTProof`.  Code that reads the store is a program of `Reads`;
the chunks created on the way are collected in a `Delta`, and `commit` lists the writes that make
those reachable from the new root persistent.

The recursion of `TryGet`, `Insert` and `TryRemove` follows stored hashes, so it is given `fuel`
here.  Each node of a trie consumes a nibble of the key or is a hash node before one that does:
`fuelFor` rounds are never used up on a trie.  `Commit` visits a chunk of the delta for every two
rounds, and it would not return if it met one twice on a path: `commitFuel`.
-/

namespace LedgerDatabase.Ledgerdb

open Chunk

variable (H : Bytes → Hash)

/-! ### `MPTDelta` -/

/-- `dirty_`: the chunks created so far, by their hash. -/
abbrev Delta := List (Hash × Bytes)

namespace MPTDelta

/-- `MPTDelta::GetChunk`; `none` is a chunk without a head. -/
def getChunk (delta : Delta) (h : Hash) : Option Bytes := delta.lookup h

/-- `MPTDelta::CreateChunk`. -/
def createChunk (delta : Delta) (h : Hash) (chunk : Bytes) : Delta :=
  if (delta.lookup h).isSome then delta else (h, chunk) :: delta

/-- The chunk under its hash, then read back. -/
def createAndGet (delta : Delta) (chunk : Bytes) : Except Fault (Bytes × Delta) :=
  let delta := createChunk delta (hash H chunk) chunk
  match getChunk delta (hash H chunk) with
  | some c => .ok (c, delta)
  | none => .error .nullChunk

/-- "commit current": a chunk of the delta is written, the nil chunk never. -/
def commitCurrent (delta : Delta) (node : Bytes) : List (Hash × Bytes) :=
  match getChunk delta (hash H node) with
  | some chunk => if hash H node ≠ hash H MPTNilNode.encode then [(hash H node, chunk)] else []
  | none => []

/-- "commit child": child `i` of a full node, where `commit` is the recursive call. -/
def commitChild (commit : Bytes → Except Fault (List (Hash × Bytes))) (node : Bytes) (i : ℕ) :
    Except Fault (List (Hash × Bytes)) := do
  let child ← MPTFullNode.getChildAtIndex node i
  if type child = .kMPTHash ∧ MPTHashNode.childHash child ≠ hash H MPTNilNode.encode then
    commit child
  else return []

/-- `MPTDelta::Commit`: the calls of `Put`, in order. -/
def commit (delta : Delta) : (fuel : ℕ) → (node : Bytes) → Except Fault (List (Hash × Bytes))
  | 0, _ => .error .diverges
  | fuel + 1, node =>
    match type node with
    | .kMPTFull => do
      let kids ← (List.range 17).mapM (commitChild H (fun child => commit delta fuel child) node)
      return kids.flatten ++ commitCurrent H delta node
    | .kMPTShort => do
      let child ← commit delta fuel (MPTShortNode.childNode node)
      return child ++ commitCurrent H delta node
    | .kMPTHash =>
      match getChunk delta (MPTHashNode.childHash node) with
      | some chunk => commit delta fuel chunk
      | none => return []
    | _ => return []

/-- Rounds for `commit`. -/
def commitFuel (delta : Delta) : ℕ := 2 * delta.length + 3

end MPTDelta

/-! ### `Trie` -/

namespace Trie

open MPTDelta

/-- Rounds for a descent along an encoded key. -/
def fuelFor (encodedKey : Bytes) : ℕ := 2 * encodedKey.length + 2

/-- `Trie::SetNodeForHash`: the chunk of the root node. -/
def setNodeForHash (rootHash : Hash) : Reads Bytes :=
  if rootHash = hash H MPTNilNode.encode then return MPTNilNode.encode
  else do
    match ← readHash rootHash with
    | none => return MPTNilNode.encode
    | some chunk => return chunk

/-- `Trie::TryGet`. -/
def tryGet : (fuel : ℕ) → (node key : Bytes) → (pos : ℕ) → Reads Bytes
  | 0, _, _, _ => .fail .diverges
  | fuel + 1, node, key, pos =>
    match type node with
    | .kMPTFull => do
      let child ← Ask.ofExcept (MPTFullNode.getChildAtIndex node (charIndex (key.getD pos 0)))
      tryGet fuel child key (pos + 1)
    | .kMPTShort =>
      let keyLen := (MPTShortNode.getKey node).length
      if subSize key.length pos < keyLen then return []
      else do
        let part ← Ask.ofExcept (substr key pos keyLen)
        if MPTShortNode.getKey node ≠ part then return []
        else tryGet fuel (MPTShortNode.childNode node) key (pos + keyLen)
    | .kMPTHash => do
      match ← readHash (MPTHashNode.childHash node) with
      | none => tryGet fuel MPTNilNode.encode key pos
      | some child => tryGet fuel child key pos
    | .kMPTValue => Ask.ofExcept (MPTValueNode.getVal node)
    | _ => return []

/-- `Trie(db, root).Get(key)`. -/
def get (root : Hash) (key : Bytes) : Reads Bytes := do
  let node ← setNodeForHash H root
  let encodedKey := MPTConfig.keybytesToHex key
  tryGet (fuelFor encodedKey) node encodedKey 0

/-- `Trie(db, root).numElements()`. -/
def numElements (root : Hash) : Reads ℕ := do
  let node ← setNodeForHash H root
  return MPTNode.numElements node

/-- `Trie::GetHashNodeChild`. -/
def getHashNodeChild (delta : Delta) (hashNode : Bytes) : Reads Bytes :=
  if type hashNode ≠ .kMPTHash then return MPTNilNode.encode
  else
    match getChunk delta (MPTHashNode.childHash hashNode) with
    | some chunk => return chunk
    | none => do
      match ← readHash (MPTHashNode.childHash hashNode) with
      | none => return MPTNilNode.encode
      | some chunk => return chunk

/-- `ori_child`: slot 16 of a full node holds the child itself, the other slots its hash. -/
def oriChild (delta : Delta) (node : Bytes) (index : ℕ) : Reads Bytes := do
  let child ← Ask.ofExcept (MPTFullNode.getChildAtIndex node index)
  if index ≠ 16 then getHashNodeChild delta child else return child

/-- `child_chunk` of a short node that is split. -/
def childChunk (delta : Delta) (node : Bytes) : Reads Bytes :=
  let child := MPTShortNode.childNode node
  if type child = .kMPTHash then getHashNodeChild delta child else return child

/-- The new root over `branch_node`: a short node for the common part of the keys, if any. -/
def splitRoot (delta : Delta) (key branchNode : Bytes) (matchLen : ℕ) : Reads (Bytes × Delta) :=
  if matchLen = 0 then Ask.ofExcept (createAndGet H delta branchNode)
  else do
    let newRoot ← Ask.ofExcept (MPTShortNode.encode H (key.take matchLen) branchNode)
    let delta := createChunk delta (hash H branchNode) branchNode
    Ask.ofExcept (createAndGet H delta newRoot)

/-- `branch_child[index] = chunk`. -/
def setBranch (branch : List Bytes) (index : ℕ) (chunk : Bytes) : Except Fault (List Bytes) :=
  if index < branch.length then .ok (branch.set index chunk) else .error .outOfRange

/-- `Trie::Insert`.  The chunk without a head that it returns for a value node is dereferenced by
every caller. -/
def insert : (fuel : ℕ) → (node key value : Bytes) → Delta → Reads (Bytes × Delta)
  | 0, _, _, _, _ => .fail .diverges
  | fuel + 1, node, key, value, delta =>
    if key.length = 0 then return (value, delta)
    else match type node with
    | .kMPTFull => do
      let index := charIndex (key.getD 0 0)
      let ori ← oriChild delta node index
      let newKey ← Ask.ofExcept (substrFrom key 1)
      let (newChild, delta) ← insert fuel ori newKey value delta
      let newRoot ← Ask.ofExcept (MPTFullNode.setChildAtIndex H node index newChild ori)
      Ask.ofExcept (createAndGet H delta newRoot)
    | .kMPTShort => do
      let oriKey := MPTShortNode.getKey node
      let matchLen := MPTConfig.prefixLen key oriKey
      if matchLen = oriKey.length then
        let newKey ← Ask.ofExcept (substrFrom key matchLen)
        let (newChild, delta) ← insert fuel (MPTShortNode.childNode node) newKey value delta
        let newRoot ← Ask.ofExcept (MPTShortNode.encode H oriKey newChild)
        Ask.ofExcept (createAndGet H delta newRoot)
      else
        let indexO := charIndex (oriKey.getD matchLen 0)
        let indexU := charIndex (key.getD matchLen 0)
        let branch := List.replicate 17 MPTNilNode.encode
        let newOriKey ← Ask.ofExcept (substrFrom oriKey (matchLen + 1))
        let newKey ← Ask.ofExcept (substrFrom key (matchLen + 1))
        let child ← childChunk delta node
        let (childO, delta) ← insert fuel MPTNilNode.encode newOriKey child delta
        let branch ← Ask.ofExcept (setBranch branch indexO childO)
        let (childU, delta) ← insert fuel MPTNilNode.encode newKey value delta
        let branch ← Ask.ofExcept (setBranch branch indexU childU)
        let branchNode ← Ask.ofExcept (MPTFullNode.encode H branch)
        splitRoot H delta key branchNode matchLen
    | .kMPTHash => do
      let child ← getHashNodeChild delta node
      insert fuel child key value delta
    | .kMPTNil => do
      let chunk ← Ask.ofExcept (MPTShortNode.encode H key value)
      Ask.ofExcept (createAndGet H delta chunk)
    | _ => .fail .nullChunk

/-- The loop of `Set` over keys and values. -/
def insertAll (root : Bytes) (delta : Delta) : (keys vals : List Bytes) → Reads (Bytes × Delta)
  | [], _ => return (root, delta)
  | _ :: _, [] => .fail .outOfRange
  | key :: keys, val :: vals => do
    let encodedKey := MPTConfig.keybytesToHex key
    let valChunk ← Ask.ofExcept (MPTValueNode.encode val)
    let (root, delta) ← insert H (fuelFor encodedKey) root encodedKey valChunk delta
    insertAll root delta keys vals

/-- The new root hash and the writes of `Commit`. -/
def finish (newRoot : Bytes) (delta : Delta) : Reads (Hash × List (Hash × Bytes)) := do
  let puts ← Ask.ofExcept (commit H delta (commitFuel delta) newRoot)
  return (hash H newRoot, puts)

/-- `Trie(db, root).Set(key, val)`. -/
def set (root : Hash) (key val : Bytes) : Reads (Hash × List (Hash × Bytes)) := do
  let node ← setNodeForHash H root
  let (newRoot, delta) ← insertAll H node [] [key] [val]
  finish H newRoot delta

/-- `Trie(db, root).Set(keys, vals)`. -/
def setBatch (root : Hash) (keys vals : List Bytes) : Reads (Hash × List (Hash × Bytes)) := do
  let node ← setNodeForHash H root
  if keys.length = 0 then return (hash H node, [])
  else
    let (newRoot, delta) ← insertAll H node [] keys vals
    finish H newRoot delta

/-- `Trie(db, keys, vals)`: the trie over the given keys, before it is opened at its root. -/
def ofKeys (keys vals : List Bytes) : Reads (Hash × List (Hash × Bytes)) :=
  setBatch H (hash H MPTNilNode.encode) keys vals

/-- One round of the loop that counts the children left. -/
def countChild (newFull : Bytes) (pos : ℤ) (i : ℕ) : Except Fault ℤ := do
  let child ← MPTFullNode.getChildAtIndex newFull i
  return if type child ≠ .kMPTNil then (if pos = -1 then (i : ℤ) else -2) else pos

/-- The only child left, `-1` for none and `-2` for several. -/
def onlyChild (newFull : Bytes) : Except Fault ℤ := (List.range 17).foldlM (countChild newFull) (-1)

/-- "change to short node if only one child left". -/
def collapse (delta : Delta) (newFull : Bytes) : Reads Bytes := do
  let pos ← Ask.ofExcept (onlyChild newFull)
  if pos < 0 then return newFull
  let pos := pos.toNat
  let hashNode ← Ask.ofExcept (MPTFullNode.getChildAtIndex newFull pos)
  if pos ≠ 16 then
    let child ← getHashNodeChild delta hashNode
    if type child = .kMPTShort then
      Ask.ofExcept (MPTShortNode.encode H (UInt8.ofNat pos :: MPTShortNode.getKey child)
        (MPTShortNode.childNode child))
    else Ask.ofExcept (MPTShortNode.encode H [] hashNode)
  else Ask.ofExcept (MPTShortNode.encode H [16] hashNode)

/-- The short node over a child that a key was removed from: two short nodes become one. -/
def joinShort (oriKey newChild : Bytes) : Except Fault Bytes :=
  if type newChild = .kMPTShort then
    MPTShortNode.encode H (oriKey ++ MPTShortNode.getKey newChild)
      (MPTShortNode.childNode newChild)
  else MPTShortNode.encode H oriKey newChild

/-- `Trie::TryRemove`.  Its `prefix` is only ever appended to. -/
def tryRemove : (fuel : ℕ) → (node key : Bytes) → Delta → Reads (Bytes × Delta)
  | 0, _, _, _ => .fail .diverges
  | fuel + 1, node, key, delta =>
    match type node with
    | .kMPTFull => do
      let index := charIndex (key.getD 0 0)
      let ori ← oriChild delta node index
      let key ← Ask.ofExcept (substrFrom key 1)
      let (newChild, delta) ← tryRemove fuel ori key delta
      let newFull ← Ask.ofExcept (MPTFullNode.setChildAtIndex H node index newChild ori)
      let newRoot ← collapse H delta newFull
      Ask.ofExcept (createAndGet H delta newRoot)
    | .kMPTShort => do
      let oriKey := MPTShortNode.getKey node
      let matchLen := MPTConfig.prefixLen key oriKey
      if matchLen < oriKey.length then return (node, delta)
      else if matchLen = key.length then return (MPTNilNode.encode, delta)
      else
        let key ← Ask.ofExcept (substrFrom key matchLen)
        let (newChild, delta) ← tryRemove fuel (MPTShortNode.childNode node) key delta
        let newRoot ← Ask.ofExcept (joinShort H oriKey newChild)
        Ask.ofExcept (createAndGet H delta newRoot)
    | .kMPTHash => do
      let child ← getHashNodeChild delta node
      tryRemove fuel child key delta
    | _ => return (MPTNilNode.encode, delta)

/-- `Trie(db, root).Remove(key)`. -/
def remove (root : Hash) (key : Bytes) : Reads (Hash × List (Hash × Bytes)) := do
  let node ← setNodeForHash H root
  let encodedKey := MPTConfig.keybytesToHex key
  let (newRoot, delta) ← tryRemove H (fuelFor encodedKey) node encodedKey []
  finish H newRoot delta

end Trie

/-! ### `MPTProof` -/

/-- `MPTProof`: the value and the chunks from the root down, each with the child taken. -/
structure MPTProof where
  value : Bytes := []
  map : List (Bytes × ℕ) := []
  deriving DecidableEq, Repr

/-- `MPTProof::AppendProof`. -/
def MPTProof.appendProof (proof : MPTProof) (value : Bytes) (pos : ℕ) : MPTProof :=
  { proof with map := proof.map ++ [(bytes value, pos)] }

/-- `Trie::TryGetProof`. -/
def Trie.tryGetProof : (fuel : ℕ) → (node key : Bytes) → (pos : ℕ) → MPTProof → Reads MPTProof
  | 0, _, _, _, _ => .fail .diverges
  | fuel + 1, node, key, pos, proof =>
    match type node with
    | .kMPTFull => do
      let index := charIndex (key.getD pos 0)
      let child ← Ask.ofExcept (MPTFullNode.getChildAtIndex node index)
      tryGetProof fuel child key (pos + 1) (proof.appendProof node index)
    | .kMPTShort =>
      let proof := proof.appendProof node 0
      let keyLen := (MPTShortNode.getKey node).length
      if subSize key.length pos < keyLen then return { proof with value := [] }
      else do
        let part ← Ask.ofExcept (substr key pos keyLen)
        if MPTShortNode.getKey node ≠ part then return { proof with value := [] }
        else tryGetProof fuel (MPTShortNode.childNode node) key (pos + keyLen) proof
    | .kMPTHash => do
      match ← readHash (MPTHashNode.childHash node) with
      | none => tryGetProof fuel MPTNilNode.encode key pos proof
      | some child => tryGetProof fuel child key pos proof
    | .kMPTValue => do
      return { proof with value := ← Ask.ofExcept (MPTValueNode.getVal node) }
    | _ => return proof

/-- `Trie::GetProof` on a trie with root node `node`. -/
def Trie.getProof (node key : Bytes) : Reads MPTProof :=
  let encodedKey := MPTConfig.keybytesToHex key
  tryGetProof (fuelFor encodedKey) node encodedKey 0 {}

namespace MPTProof

/-- One round of the loop of `VerifyProof`: the next position in the key and the next hash, or
`none` when the chunk is rejected. -/
def verifyStep (value key : Bytes) (chunk : Bytes) (mapPos pos : ℕ) (target : Hash) :
    Except Fault (Option (ℕ × Hash)) :=
  if target ≠ hash H chunk then return none
  else if type chunk = .kMPTFull then do
    let child ← MPTFullNode.getChildAtIndex chunk mapPos
    if mapPos = 16 then
      if (← MPTValueNode.getVal child) ≠ value then return none
      else return some (pos + 1, target)
    else return some (pos + 1, MPTHashNode.childHash child)
  else if value ≠ [] then do
    let child := MPTShortNode.childNode chunk
    let next := pos + (MPTShortNode.getKey chunk).length
    if type child = .kMPTHash then return some (next, MPTHashNode.childHash child)
    else if (← MPTValueNode.getVal child) ≠ value then return none
    else return some (next, target)
  else do
    let targetKey := MPTShortNode.getKey chunk
    let currKey ← substrFrom key pos
    if MPTConfig.prefixLen currKey targetKey ≠ targetKey.length then return none
    else return some (pos, target)

/-- The loop of `VerifyProof`. -/
def verifyLoop (value key : Bytes) : List (Bytes × ℕ) → (pos : ℕ) → (target : Hash) →
    Except Fault Bool
  | [], _, _ => return true
  | (chunk, mapPos) :: rest, pos, target => do
    match ← verifyStep H value key chunk mapPos pos target with
    | none => return false
    | some (pos, target) => verifyLoop value key rest pos target

/-- `MPTProof::VerifyProof`. -/
def verifyProof (proof : MPTProof) (digest : Hash) (key : Bytes) : Except Fault Bool :=
  verifyLoop H proof.value key proof.map 0 digest

end MPTProof

end LedgerDatabase.Ledgerdb
