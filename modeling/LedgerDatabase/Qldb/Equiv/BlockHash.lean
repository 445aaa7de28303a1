import LedgerDatabase.Ledgerdb.Equiv.Mpt.VerifyProof
import LedgerDatabase.Qldb.Equiv.Merkle
import LedgerDatabase.Qldb.Equiv.Qlnode

/-!
# What a block hash commits to

`addBlock_inv` takes a call of `Set` apart, and `addBlock_eq` puts it together again.

The leaves of a block's tree are the hashes of its documents, of the previous block and of the two
buffers `stmt` and `addr`.  Equal block hashes mean equal leaves (`blockLeaves_eq`): the first leaf is
the hash of a document, which no inner node is long enough to be, so the trees have the same height.
The documents carry the name of the ledger, the number of the block and the time, so these are
committed to although `addr` loses them.

But `stmt` is hashed with a byte that `Set` never writes, so a block hash is not a function of the
block (`blockHash_unset`).
-/

namespace LedgerDatabase.Qldb

open Chunk PairTree
open Ledgerdb.MerkleTree (hashPair hashOne hashLevel hashLevel_height merkleRoot height)
open Ledgerdb.Mpt (Collision injOn_of_not_collision)

namespace QLDB

variable {H : Bytes → Hash} {cfg : BPlusConfig}

/-! ### The documents of a call -/

/-- The documents are the entries of the call, in order. -/
theorem createDocuments_spec {name : Bytes} {seqno : ℕ} {now : UInt64} :
    ∀ {entries : List (Bytes × Bytes)} {i : ℕ} {q q' : QLDB} {created : List (Bytes × Bytes)},
      createDocuments name seqno now i entries q = .ok (created, q') →
      created.length = entries.length ∧ ∀ j d, (created.map Prod.snd)[j]? = some d →
        ∃ key val version, entries[j]? = some (key, val) ∧
          Document.encode key val ⟨name, seqno⟩ ⟨i + j, version, now.toNat⟩ = .ok d := by
  intro entries
  induction entries with
  | nil =>
    intro i q q' created h
    obtain ⟨rfl, -⟩ := Prod.mk.inj (Except.ok.inj h)
    exact ⟨rfl, fun j d hd => by simp at hd⟩
  | cons e rest ih =>
    obtain ⟨key, val⟩ := e
    intro i q q' created h
    obtain ⟨⟨latest, q₁⟩, -, h⟩ := bind_eq_ok_iff.mp h
    obtain ⟨document, hdoc, h⟩ := bind_eq_ok_iff.mp h
    obtain ⟨⟨documents, q₂⟩, hrest, h⟩ := bind_eq_ok_iff.mp h
    obtain ⟨rfl, -⟩ := Prod.mk.inj (Except.ok.inj h)
    obtain ⟨hlen, hall⟩ := ih hrest
    refine ⟨by rw [List.length_cons, List.length_cons, hlen], fun j d hd => ?_⟩
    cases j with
    | zero =>
      obtain rfl : document = d := Option.some.inj hd
      exact ⟨key, val, _, rfl, hdoc⟩
    | succ j =>
      obtain ⟨key', val', version, hentry, hencode⟩ := hall j d hd
      refine ⟨key', val', version, hentry, ?_⟩
      rw [← hencode, Nat.add_assoc, Nat.add_comm 1 j]

/-- The documents of a block that `Set` creates. -/
def IsDocument (name : Bytes) (seqno : ℕ) (now : UInt64) (d : Bytes) : Prop :=
  ∃ key val docSeq version,
    Document.encode key val ⟨name, seqno⟩ ⟨docSeq, version, now.toNat⟩ = .ok d

theorem IsDocument.whole {name d : Bytes} {seqno : ℕ} {now : UInt64}
    (h : IsDocument name seqno now d) : QLBlock.Whole d := by
  obtain ⟨key, val, docSeq, version, h⟩ := h
  exact fun junk => Document.numBytes_of_encode h

theorem IsDocument.length_ge {name d : Bytes} {seqno : ℕ} {now : UInt64}
    (h : IsDocument name seqno now d) : 41 ≤ d.length := by
  obtain ⟨key, val, docSeq, version, h⟩ := h
  exact Document.length_of_encode h

theorem IsDocument.hash_eq {name d : Bytes} {seqno : ℕ} {now : UInt64}
    (h : IsDocument name seqno now d) : Chunk.hash H d = H d := by
  rw [Chunk.hash, h.whole.bytes_eq]

theorem isDocument_of_createDocuments {name : Bytes} {seqno i : ℕ} {now : UInt64}
    {entries created : List (Bytes × Bytes)} {q q' : QLDB}
    (h : createDocuments name seqno now i entries q = .ok (created, q')) :
    ∀ d ∈ created.map Prod.snd, IsDocument name seqno now d := by
  intro d hd
  obtain ⟨j, hj⟩ := List.mem_iff_getElem?.mp hd
  obtain ⟨key, val, version, -, hencode⟩ := (createDocuments_spec h).2 j d hj
  exact ⟨key, val, _, version, hencode⟩

/-! ### A call of `Set` -/

variable (H cfg) in
/-- The values that a call of `Set` computes on its way. -/
structure Call (q : QLDB) (name : Bytes) (entries : List (Bytes × Bytes)) (env : Env) where
  seqno : ℕ
  prevHash : Hash
  created : List (Bytes × Bytes)
  /-- The ledger after the documents were created. -/
  q₁ : QLDB
  indexed : QLBTree
  /-- The store after the first index was written. -/
  db₁ : DB
  history : QLBTree
  /-- The store after the second index was written. -/
  db₂ : DB
  nextBlock_eq : nextBlock H ((q.db.getString name).getD []) = .ok (seqno, prevHash)
  created_eq : createDocuments name seqno env.now 0 entries q = .ok (created, q₁)
  indexed_eq : ∃ b, q₁.indexed.set cfg ((entries.map Prod.fst).zip (created.map Prod.snd)) q₁.db
    = .ok (b, indexed, db₁)
  history_eq : ∃ b, q₁.history.set cfg created db₁ = .ok (b, history, db₂)

namespace Call

variable {q : QLDB} {name : Bytes} {entries : List (Bytes × Bytes)} {env : Env}

/-- The documents of the block. -/
def documents (c : Call H cfg q name entries env) : List Bytes := c.created.map Prod.snd

/-- The leaves of the block's tree. -/
def leaves (c : Call H cfg q name entries env) : List Hash :=
  blockLeaves H c.documents c.prevHash name c.seqno env

/-- The hash of the block. -/
def blockHash (c : Call H cfg q name entries env) : Hash := merkleRoot H c.leaves

/-- The store with the block's tree. -/
def db₃ (c : Call H cfg q name entries env) : DB :=
  c.db₂.putStrings (treePuts H (blockNodeKey name c.seqno) 0 (height c.leaves) c.leaves)

theorem leaves_ne_nil (c : Call H cfg q name entries env) : c.leaves ≠ [] := by
  simp [leaves, blockLeaves]

theorem isDocument (c : Call H cfg q name entries env) :
    ∀ d ∈ c.documents, IsDocument name c.seqno env.now d :=
  isDocument_of_createDocuments c.created_eq

theorem length_documents (c : Call H cfg q name entries env) :
    c.documents.length = entries.length := by
  rw [documents, List.length_map, (createDocuments_spec c.created_eq).1]

/-- The values are determined by the call. -/
theorem eq (c c' : Call H cfg q name entries env) : c = c' := by
  obtain ⟨seqno, prevHash, created, q₁, indexed, db₁, history, db₂, hnext, hcreated, ⟨b, hindexed⟩,
    ⟨b', hhistory⟩⟩ := c
  obtain ⟨seqno', prevHash', created', q₁', indexed', db₁', history', db₂', hnext', hcreated',
    ⟨b₁, hindexed'⟩, ⟨b₁', hhistory'⟩⟩ := c'
  obtain ⟨rfl, rfl⟩ := Prod.mk.inj (Except.ok.inj (hnext.symm.trans hnext'))
  obtain ⟨rfl, rfl⟩ := Prod.mk.inj (Except.ok.inj (hcreated.symm.trans hcreated'))
  obtain ⟨rfl, rfl, rfl⟩ := (Except.ok.inj (hindexed.symm.trans hindexed'))
  obtain ⟨rfl, rfl, rfl⟩ := (Except.ok.inj (hhistory.symm.trans hhistory'))
  rfl

end Call

/-- The loop of `calculateDigest` always ends. -/
theorem digestLoop_ok (prevBlockHash : Hash) (name : Bytes) : ∀ (fuel level lastSeqno : ℕ)
    (currHash : Hash) (db : DB), lastSeqno < fuel →
      ∃ r, digestLoop H prevBlockHash name fuel level lastSeqno currHash db = .ok r := by
  intro fuel
  induction fuel with
  | zero => exact fun level lastSeqno currHash db h => absurd h (Nat.not_lt_zero _)
  | succ fuel ih =>
    intro level lastSeqno currHash db h
    rw [digestLoop]
    by_cases hpos : 0 < lastSeqno
    · rw [if_pos hpos]
      exact ih _ _ _ _ (by omega)
    · rw [if_neg hpos]
      exact ⟨_, rfl⟩

theorem calculateDigest_ok (blockHash prevBlockHash : Hash) (name : Bytes) (seqno : ℕ) (db : DB) :
    ∃ db', calculateDigest H blockHash prevBlockHash name seqno db = .ok db' := by
  obtain ⟨⟨currHash, db'⟩, h⟩ := digestLoop_ok (H := H) prevBlockHash name (seqno + 1) 0 seqno
    blockHash db (Nat.lt_succ_self _)
  exact ⟨_, by rw [calculateDigest, h]; rfl⟩

/-- **A call of `Set` taken apart.** -/
theorem addBlock_inv {q q' : QLDB} {name : Bytes} {entries : List (Bytes × Bytes)} {env : Env}
    (h : addBlock H cfg q name entries env = .ok q') :
    ∃ (c : Call H cfg q name entries env) (db₄ : DB) (block : Bytes),
      calculateDigest H c.blockHash c.prevHash name c.seqno c.db₃ = .ok db₄ ∧
      QLBlock.encode ⟨name, c.seqno⟩ ⟨0, env.now.toNat⟩ env.now.toNat c.blockHash c.prevHash
        c.documents = .ok block ∧
      q' = { db := (db₄.putChunk (blockKey name c.seqno) block).putString name
               (toDecimal c.seqno ++ str "|" ++ c.blockHash.toBase32)
             indexed := c.indexed
             history := c.history } := by
  rw [addBlock] at h
  obtain ⟨⟨seqno, prevHash⟩, hnext, h⟩ := bind_eq_ok_iff.mp h
  obtain ⟨⟨created, q₁⟩, hcreated, h⟩ := bind_eq_ok_iff.mp h
  obtain ⟨⟨b, indexed, db₁⟩, hindexed, h⟩ := bind_eq_ok_iff.mp h
  obtain ⟨⟨b', history, db₂⟩, hhistory, h⟩ := bind_eq_ok_iff.mp h
  let c : Call H cfg q name entries env :=
    { seqno, prevHash, created, q₁, indexed, db₁, history, db₂
      nextBlock_eq := hnext
      created_eq := hcreated
      indexed_eq := ⟨b, hindexed⟩
      history_eq := ⟨b', hhistory⟩ }
  obtain ⟨⟨blockHash, db₃⟩, hhash, h⟩ := bind_eq_ok_iff.mp h
  have hhash' : calculateBlockHash H c.leaves name seqno db₂ = .ok (blockHash, db₃) := hhash
  rw [calculateBlockHash_eq H name seqno c.leaves_ne_nil] at hhash'
  obtain ⟨rfl, rfl⟩ := Prod.mk.inj (Except.ok.inj hhash')
  obtain ⟨db₄, hdigest, h⟩ := bind_eq_ok_iff.mp h
  obtain ⟨block, hblock, h⟩ := bind_eq_ok_iff.mp h
  exact ⟨c, db₄, block, hdigest, hblock, (Except.ok.inj h).symm⟩

/-- A call of `Set` returns when its block fits a chunk. -/
theorem addBlock_eq {q : QLDB} {name : Bytes} {entries : List (Bytes × Bytes)} {env : Env}
    (c : Call H cfg q name entries env) {db₄ : DB} {block : Bytes}
    (hdigest : calculateDigest H c.blockHash c.prevHash name c.seqno c.db₃ = .ok db₄)
    (hblock : QLBlock.encode ⟨name, c.seqno⟩ ⟨0, env.now.toNat⟩ env.now.toNat c.blockHash c.prevHash
        c.documents = .ok block) :
    addBlock H cfg q name entries env
      = .ok { db := (db₄.putChunk (blockKey name c.seqno) block).putString name
                (toDecimal c.seqno ++ str "|" ++ c.blockHash.toBase32)
              indexed := c.indexed
              history := c.history } := by
  obtain ⟨b, hindexed⟩ := c.indexed_eq
  obtain ⟨b', hhistory⟩ := c.history_eq
  have hhash := calculateBlockHash_eq H name c.seqno c.leaves_ne_nil c.db₂
  simp only [addBlock, c.nextBlock_eq, ok_bind, c.created_eq, hindexed, hhistory]
  simp only [Call.leaves] at hhash
  rw [show (c.created.map Prod.snd) = c.documents from rfl, hhash, ok_bind]
  have hdigest' := hdigest
  simp only [Call.blockHash, Call.db₃, Call.leaves] at hdigest'
  rw [hdigest', ok_bind]
  have hblock' := hblock
  simp only [Call.blockHash, Call.leaves] at hblock'
  rw [hblock', ok_bind]
  rfl

/-! ### The buffers -/

theorem memcpy_zero {buf src : Bytes} : memcpy buf 0 src = src ++ buf.drop src.length := by
  rw [memcpy, List.take_zero, List.nil_append, Nat.zero_add]

theorem length_buffer (raw : ℕ → UInt8) (n : ℕ) : (buffer raw n).length = n := by
  rw [buffer, List.length_map, List.length_range]

/-- Of the statement only the time is hashed, and the byte behind it, which is never written. -/
theorem stmtBytes_eq (env : Env) : stmtBytes env = leBytes 8 env.now.toNat ++ [env.stmt 8] := by
  rw [stmtBytes, memcpy_zero, memcpy_zero, length_leBytes]
  rfl

theorem blockLeaves_inj {documents documents' : List Bytes} {prevHash prevHash' : Hash}
    {name name' : Bytes} {seqno seqno' : ℕ} {env env' : Env}
    (h : blockLeaves H documents prevHash name seqno env
      = blockLeaves H documents' prevHash' name' seqno' env') :
    documents.map (Chunk.hash H) = documents'.map (Chunk.hash H) ∧ prevHash = prevHash' ∧
      H (stmtBytes env) = H (stmtBytes env') := by
  obtain ⟨hdocs, hrest⟩ := List.append_inj' h rfl
  exact ⟨hdocs, (List.cons.inj hrest).1, (List.cons.inj (List.cons.inj hrest).2).1⟩

/-! ### Equal roots -/

section

variable (H)

theorem hashLevel_add (l k : ℕ) (xs : List Hash) :
    hashLevel H (l + k) xs = hashLevel H l (hashLevel H k xs) :=
  Function.iterate_add_apply _ l k xs

theorem nodes_hashLevel (l k : ℕ) (xs : List Hash) : nodes H l (hashLevel H k xs) = nodes H (l + k) xs := by
  rw [nodes, nodes, hashLevel_add]

variable {H}

/-- A tree whose first leaf is the hash of a long string is not lower than another tree with the
same root. -/
theorem height_le_of_merkleRoot_eq {S : Set Bytes} (hinj : Set.InjOn H S) {xs ys : List Hash}
    (hx : xs ≠ []) (hy : ys ≠ []) (hxs : ∀ s ∈ treeNodes H xs, s ∈ S)
    (hys : ∀ s ∈ treeNodes H ys, s ∈ S) {d : Bytes} (hd : d ∈ S) (hlen : 41 ≤ d.length)
    (hhead : xs.head? = some (H d)) (h : merkleRoot H xs = merkleRoot H ys) :
    height ys ≤ height xs := by
  by_contra hlt
  obtain ⟨k, hk⟩ : ∃ k, height ys = height xs + (k + 1) := ⟨height ys - height xs - 1, by omega⟩
  -- down to the leaves of the lower tree both have the same nodes
  have hroots : hashLevel H (height xs) xs = hashLevel H (height xs) (hashLevel H (k + 1) ys) := by
    rw [hashLevel_height H hx, ← hashLevel_add, ← hk, hashLevel_height H hy, h]
  have heq : xs = hashLevel H (k + 1) ys := by
    apply eq_of_hashLevel_eq H hinj _ _ hroots
    · exact fun l hl s hs => hxs s (mem_treeNodes H hl hs)
    · intro l hl s hs
      rw [nodes_hashLevel] at hs
      exact hys s (mem_treeNodes H (by omega) hs)
  -- so the long string is hashed like one of them
  rw [heq, hashLevel_succ_eq, List.head?_map, Option.map_eq_some_iff] at hhead
  obtain ⟨s, hs, hsd⟩ := hhead
  have hmem : s ∈ nodes H k ys := List.mem_of_mem_head? hs
  obtain rfl : s = d := hinj (hys s (mem_treeNodes H (by omega) hmem)) hd hsd
  rcases length_of_mem_nodes H hmem with h | h <;> omega

/-- Trees with the same root and the hashes of long strings in front have the same leaves. -/
theorem eq_of_merkleRoot_eq {S : Set Bytes} (hinj : Set.InjOn H S) {xs ys : List Hash}
    (hx : xs ≠ []) (hy : ys ≠ []) (hxs : ∀ s ∈ treeNodes H xs, s ∈ S)
    (hys : ∀ s ∈ treeNodes H ys, s ∈ S) {d d' : Bytes} (hd : d ∈ S) (hd' : d' ∈ S)
    (hlen : 41 ≤ d.length) (hlen' : 41 ≤ d'.length) (hhead : xs.head? = some (H d))
    (hhead' : ys.head? = some (H d')) (h : merkleRoot H xs = merkleRoot H ys) : xs = ys := by
  have hheight : height xs = height ys :=
    Nat.le_antisymm (height_le_of_merkleRoot_eq hinj hy hx hys hxs hd' hlen' hhead' h.symm)
      (height_le_of_merkleRoot_eq hinj hx hy hxs hys hd hlen hhead h)
  apply eq_of_hashLevel_eq H (L := height xs) hinj
  · exact fun l hl s hs => hxs s (mem_treeNodes H hl hs)
  · exact fun l hl s hs => hys s (mem_treeNodes H (by omega) hs)
  · rw [hashLevel_height H hx, hheight, hashLevel_height H hy, h]

end

/-! ### Executions -/

/-- What a block is about. -/
structure Block where
  documents : List Bytes
  prevHash : Hash
  statement : Statement
  /-- `ledger_name`. -/
  ledgerName : Bytes
  seqno : ℕ
  time : ℕ
  deriving DecidableEq

variable (H) in
/-- A call of `Set` that added a block. -/
structure Execution where
  cfg : BPlusConfig
  q : QLDB
  name : Bytes
  keys : List Bytes
  vals : List Bytes
  env : Env
  keys_ne_nil : keys ≠ []
  returns : ∃ q', q.set H cfg name keys vals env = .ok (true, q')
  call : Call H cfg q name (keys.zip vals) env
  /-- `seqno` is a `uint64_t`. -/
  seqno_lt : call.seqno < 2 ^ 64

namespace Execution

/-- The block that is added. -/
def block (e : Execution H) : Block where
  documents := e.call.documents
  prevHash := e.call.prevHash
  statement := ⟨0, e.env.now.toNat⟩
  ledgerName := e.name
  seqno := e.call.seqno
  time := e.env.now.toNat

/-- `block_hash`. -/
def blockHash (e : Execution H) : Hash := e.call.blockHash

/-- The byte strings that are hashed. -/
def hashed (e : Execution H) : List Bytes :=
  e.call.documents ++ [stmtBytes e.env, addrBytes e.name e.call.seqno e.env] ++
    treeNodes H e.call.leaves

theorem length_keys (e : Execution H) : e.keys.length = e.vals.length := by
  obtain ⟨q', h⟩ := e.returns
  by_contra hne
  rw [set, if_pos hne] at h
  cases h

theorem addBlock_returns (e : Execution H) :
    ∃ q', addBlock H e.cfg e.q e.name (e.keys.zip e.vals) e.env = .ok q' := by
  obtain ⟨q', h⟩ := e.returns
  have hpos : e.keys.length ≠ 0 := fun h => e.keys_ne_nil (List.length_eq_zero_iff.mp h)
  rw [set, if_neg (not_not.mpr e.length_keys), if_neg hpos] at h
  obtain ⟨q', hadd, -⟩ := bind_eq_ok_iff.mp h
  exact ⟨q', hadd⟩

/-- The block fits a chunk. -/
theorem encode_returns (e : Execution H) : ∃ block,
    QLBlock.encode ⟨e.name, e.call.seqno⟩ ⟨0, e.env.now.toNat⟩ e.env.now.toNat e.blockHash
      e.call.prevHash e.call.documents = .ok block := by
  obtain ⟨q', h⟩ := e.addBlock_returns
  obtain ⟨c, -, block, -, hblock, -⟩ := addBlock_inv h
  rw [c.eq e.call] at hblock
  exact ⟨block, hblock⟩

theorem whole_documents (e : Execution H) : ∀ d ∈ e.call.documents, QLBlock.Whole d :=
  fun d hd => (e.call.isDocument d hd).whole

theorem length_name (e : Execution H) : e.name.length < 2 ^ 32 := by
  obtain ⟨block, h⟩ := e.encode_returns
  have hsize := ((QLBlock.encode_eq_ok_iff e.whole_documents).mp h).1
  rw [List.length_append, QLBlock.length_headOf] at hsize
  show (BlockAddress.mk e.name e.call.seqno).ledgerName.length < 2 ^ 32
  omega

/-- There is a first document, and its hash is the first leaf. -/
theorem exists_first (e : Execution H) :
    ∃ d rest, e.call.documents = d :: rest ∧ e.call.leaves.head? = some (H d) := by
  have hpos : 0 < e.call.documents.length := by
    rw [e.call.length_documents, List.length_zip, e.length_keys, min_self, ← e.length_keys]
    exact List.length_pos_iff.mpr e.keys_ne_nil
  obtain ⟨d, rest, hdocs⟩ := List.exists_cons_of_length_pos hpos
  refine ⟨d, rest, hdocs, ?_⟩
  have hdoc := e.call.isDocument d (by rw [hdocs]; exact List.mem_cons_self)
  rw [Call.leaves, blockLeaves, hdocs, List.map_cons, List.cons_append, List.head?_cons,
    hdoc.hash_eq]

theorem mem_hashed_of_document (e : Execution H) {d : Bytes} (h : d ∈ e.call.documents) :
    d ∈ e.hashed :=
  List.mem_append_left _ (List.mem_append_left _ h)

theorem stmtBytes_mem_hashed (e : Execution H) : stmtBytes e.env ∈ e.hashed :=
  List.mem_append_left _ (List.mem_append_right _ List.mem_cons_self)

theorem mem_hashed_of_node (e : Execution H) {s : Bytes} (h : s ∈ treeNodes H e.call.leaves) :
    s ∈ e.hashed :=
  List.mem_append_right _ h

/-- **Equal block hashes mean equal leaves**, unless a collision is exhibited. -/
theorem leaves_eq {e e' : Execution H} (hinj : Set.InjOn H {s | s ∈ e.hashed ++ e'.hashed})
    (h : e.blockHash = e'.blockHash) : e.call.leaves = e'.call.leaves := by
  obtain ⟨d, rest, hdocs, hhead⟩ := e.exists_first
  obtain ⟨d', rest', hdocs', hhead'⟩ := e'.exists_first
  have hd : d ∈ e.call.documents := hdocs ▸ List.mem_cons_self
  have hd' : d' ∈ e'.call.documents := hdocs' ▸ List.mem_cons_self
  exact eq_of_merkleRoot_eq hinj e.call.leaves_ne_nil e'.call.leaves_ne_nil
    (fun s hs => List.mem_append_left _ (e.mem_hashed_of_node hs))
    (fun s hs => List.mem_append_right _ (e'.mem_hashed_of_node hs))
    (List.mem_append_left _ (e.mem_hashed_of_document hd))
    (List.mem_append_right _ (e'.mem_hashed_of_document hd'))
    (e.call.isDocument d hd).length_ge (e'.call.isDocument d' hd').length_ge hhead hhead' h

theorem map_hash_documents (e : Execution H) :
    e.call.documents.map (Chunk.hash H) = e.call.documents.map H :=
  List.map_congr_left fun d hd => (e.call.isDocument d hd).hash_eq

/-- The documents of equal blocks are equal, and name the ledger, the block and the time. -/
theorem block_eq {e e' : Execution H} (hdocs : e.call.documents = e'.call.documents)
    (hprev : e.call.prevHash = e'.call.prevHash) : e.block = e'.block := by
  obtain ⟨d, rest, hd, -⟩ := e.exists_first
  obtain ⟨key, val, docSeq, version, hencode⟩ := e.call.isDocument d (hd ▸ List.mem_cons_self)
  obtain ⟨key', val', docSeq', version', hencode'⟩ :=
    e'.call.isDocument d (hdocs ▸ hd ▸ List.mem_cons_self)
  have hfields := Document.ofFields_eq_of_encode e.length_name e'.length_name hencode hencode'
  have haddr := congrArg Document.addr hfields
  have hname : e.name = e'.name := congrArg BlockAddress.ledgerName haddr
  have hseqno : e.call.seqno = e'.call.seqno := by
    have h : e.call.seqno % 256 ^ 8 = e'.call.seqno % 256 ^ 8 := congrArg BlockAddress.seqNo haddr
    have hlt := e.seqno_lt
    have hlt' := e'.seqno_lt
    omega
  have htime : e.env.now.toNat = e'.env.now.toNat := by
    have h : e.env.now.toNat % 256 ^ 8 = e'.env.now.toNat % 256 ^ 8 :=
      congrArg (fun d => d.metadata.time) hfields
    have hlt := e.env.now.toNat_lt
    have hlt' := e'.env.now.toNat_lt
    omega
  rw [block, block, hdocs, hprev, hseqno, htime, hname]

/-- The same call with another byte behind the time in `stmt`. -/
theorem exists_unset (e : Execution H) : ∃ e' : Execution H, e'.block = e.block ∧
    stmtBytes e'.env ≠ stmtBytes e.env := by
  let env : Env := { e.env with stmt := fun _ => e.env.stmt 8 + 1 }
  let c : Call H e.cfg e.q e.name (e.keys.zip e.vals) env :=
    { seqno := e.call.seqno
      prevHash := e.call.prevHash
      created := e.call.created
      q₁ := e.call.q₁
      indexed := e.call.indexed
      db₁ := e.call.db₁
      history := e.call.history
      db₂ := e.call.db₂
      nextBlock_eq := e.call.nextBlock_eq
      created_eq := e.call.created_eq
      indexed_eq := e.call.indexed_eq
      history_eq := e.call.history_eq }
  -- the size of the block does not depend on its hash
  obtain ⟨block, hblock⟩ := e.encode_returns
  have hsize := ((QLBlock.encode_eq_ok_iff e.whole_documents).mp hblock).1
  rw [List.length_append, QLBlock.length_headOf] at hsize
  have hblock' : ∃ block', QLBlock.encode ⟨e.name, c.seqno⟩ ⟨0, env.now.toNat⟩ env.now.toNat
      c.blockHash c.prevHash c.documents = .ok block' := by
    refine ⟨_, (QLBlock.encode_eq_ok_iff e.whole_documents).mpr ⟨?_, rfl⟩⟩
    rw [List.length_append, QLBlock.length_headOf]
    exact hsize
  obtain ⟨block', hblock'⟩ := hblock'
  obtain ⟨db₄, hdigest⟩ := calculateDigest_ok (H := H) c.blockHash c.prevHash e.name c.seqno c.db₃
  have hadd := addBlock_eq c hdigest hblock'
  have hpos : e.keys.length ≠ 0 := fun h => e.keys_ne_nil (List.length_eq_zero_iff.mp h)
  have hreturns : ∃ q', e.q.set H e.cfg e.name e.keys e.vals env = .ok (true, q') := by
    rw [set, if_neg (not_not.mpr e.length_keys), if_neg hpos, hadd]
    exact ⟨_, rfl⟩
  refine ⟨{ e with env := env, returns := hreturns, call := c, seqno_lt := e.seqno_lt }, rfl, ?_⟩
  intro heq
  rw [stmtBytes_eq, stmtBytes_eq] at heq
  have hbyte : e.env.stmt 8 + 1 = e.env.stmt 8 := (List.cons.inj (List.append_cancel_left heq)).1
  exact absurd hbyte (by simp)

end Execution

/-- **A block hash commits to the block and to a byte that was never written.**  Calls of `Set` with
equal block hashes have added equal blocks, or a collision is exhibited.  But for every call there
is another one that adds the same block under a different block hash, or exhibits a collision. -/
theorem blockHash_commits_and_unset (e : Execution H) :
    (∀ e' : Execution H, e.blockHash = e'.blockHash →
      e.block = e'.block ∨ Collision H (e.hashed ++ e'.hashed)) ∧
    ∃ e' : Execution H, e'.block = e.block ∧
      (e'.blockHash ≠ e.blockHash ∨ Collision H (e.hashed ++ e'.hashed)) := by
  constructor
  · intro e' h
    by_cases hcol : Collision H (e.hashed ++ e'.hashed)
    · exact Or.inr hcol
    · left
      have hinj := injOn_of_not_collision hcol
      obtain ⟨hdocs, hprev, -⟩ := blockLeaves_inj (Execution.leaves_eq hinj h)
      rw [e.map_hash_documents, e'.map_hash_documents] at hdocs
      apply Execution.block_eq _ hprev
      exact eq_of_map_eq hinj (fun d hd => List.mem_append_left _ (e.mem_hashed_of_document hd))
        (fun d hd => List.mem_append_right _ (e'.mem_hashed_of_document hd)) hdocs
  · obtain ⟨e', hblock, hstmt⟩ := e.exists_unset
    refine ⟨e', hblock, ?_⟩
    by_cases hcol : Collision H (e.hashed ++ e'.hashed)
    · exact Or.inr hcol
    · left
      intro h
      have hinj := injOn_of_not_collision hcol
      obtain ⟨-, -, hhash⟩ := blockLeaves_inj (Execution.leaves_eq hinj h.symm)
      exact hstmt (hinj (List.mem_append_left _ e.stmtBytes_mem_hashed)
        (List.mem_append_right _ e'.stmtBytes_mem_hashed) hhash).symm

/-! ### One document under two block hashes -/

/-- A ledger on a new store. -/
def emptyLedger : QLDB where
  db := { mCache := [(str "HISTORY_ROOT", none), (str "COMMITTED_ROOT", none)] }
  indexed := ⟨str "COMMITTED_", QLBTreeMap.emptyMap⟩
  history := ⟨str "HISTORY_", QLBTreeMap.emptyMap⟩

example : ofDB {} = .ok emptyLedger := by decide +kernel

/-- A moment at which the byte behind the time in `stmt` is `b`. -/
def envA (b : UInt8) : Env := ⟨1700000000000, fun _ => b, fun _ => 0⟩

/-- The document of the value `v` under the key `k`. -/
def docA : Bytes := ofByteData ChunkType.kDocument.toByte
  (Document.dataOf (str "k") (str "v") ⟨str "test", 0⟩ ⟨0, 0, 1700000000000⟩)

/-- The values of BLAKE2b that the block of this document needs, for two values of that byte. -/
def hashK : Bytes → Hash :=
  let node a b := (Hash.fromBase32 (str a)).bytes ++ (Hash.fromBase32 (str b)).bytes
  Hash.ofTable
    [(str "0", "5HYRIYSJKOM4BOGQ3DWHCKG7TQGXE2ON"),
      (docA, "SSEWBILPQNBFNYRX5AZIW5FP5Q3UXOWB"),
      (addrBytes (str "test") 0 (envA 0), "AXMOOHXT7MRDSPJC6TFZQ6XATC6LGOIK"),
      (stmtBytes (envA 0), "HSXEFFJ267ALAZGDGOOEO2PVDOEFMQZC"),
      (stmtBytes (envA 1), "XYDWGXQIZ4CG36ZEWZ3BAKFR7WPII2UQ"),
      (node "SSEWBILPQNBFNYRX5AZIW5FP5Q3UXOWB" "5HYRIYSJKOM4BOGQ3DWHCKG7TQGXE2ON",
        "D5XBZ3NBMH3TMX4SLI6KC4NU4P6RC3NR"),
      (node "HSXEFFJ267ALAZGDGOOEO2PVDOEFMQZC" "AXMOOHXT7MRDSPJC6TFZQ6XATC6LGOIK",
        "22NQ3ABE766ZZCCT2EDW4DUUKRMOX6SA"),
      (node "XYDWGXQIZ4CG36ZEWZ3BAKFR7WPII2UQ" "AXMOOHXT7MRDSPJC6TFZQ6XATC6LGOIK",
        "3XVSAXTADFNPIEFVNL7OOHYW2WVPQL3J"),
      (node "D5XBZ3NBMH3TMX4SLI6KC4NU4P6RC3NR" "22NQ3ABE766ZZCCT2EDW4DUUKRMOX6SA",
        "2BG6TMA7VZF7UIGDKZ2KGANWN6A3ECQ6"),
      (node "D5XBZ3NBMH3TMX4SLI6KC4NU4P6RC3NR" "3XVSAXTADFNPIEFVNL7OOHYW2WVPQL3J",
        "HO6ILBLMSNXRKU4VPWZQIB6M5GPBZAGZ")]

/-- The tree and the store after a batch, for a batch that is known to succeed. -/
def afterSet (t : QLBTree) (batch : List (Bytes × Bytes)) (db : DB) : QLBTree × DB :=
  match t.set {} batch db with
  | .ok (_, t, db) => (t, db)
  | .error _ => (t, db)

/-- The call that writes the document. -/
def callA (b : UInt8) :
    Call hashK {} emptyLedger (str "test") ([str "k"].zip [str "v"]) (envA b) where
  seqno := 0
  prevHash := hashK (str "0")
  created := [(str "k|0", docA)]
  q₁ := emptyLedger
  indexed := (afterSet emptyLedger.indexed [(str "k", docA)] emptyLedger.db).1
  db₁ := (afterSet emptyLedger.indexed [(str "k", docA)] emptyLedger.db).2
  history := (afterSet emptyLedger.history [(str "k|0", docA)]
    (afterSet emptyLedger.indexed [(str "k", docA)] emptyLedger.db).2).1
  db₂ := (afterSet emptyLedger.history [(str "k|0", docA)]
    (afterSet emptyLedger.indexed [(str "k", docA)] emptyLedger.db).2).2
  nextBlock_eq := rfl
  created_eq := by
    show createDocuments (str "test") 0 1700000000000 0 [(str "k", str "v")] emptyLedger
      = .ok ([(str "k|0", docA)], emptyLedger)
    decide +kernel
  indexed_eq := ⟨true, by decide +kernel⟩
  history_eq := ⟨true, by decide +kernel⟩

/-- Whether a call of `Set` added a block. -/
def added : Except Fault (Bool × QLDB) → Bool
  | .ok (true, _) => true
  | _ => false

theorem exists_of_added {r : Except Fault (Bool × QLDB)} (h : added r = true) :
    ∃ q', r = .ok (true, q') := by
  rcases r with e | ⟨_ | _, q'⟩
  · cases h
  · cases h
  · exact ⟨q', rfl⟩

theorem added_callA_zero :
    added (emptyLedger.set hashK {} (str "test") [str "k"] [str "v"] (envA 0)) = true := by
  decide +kernel

theorem added_callA_one :
    added (emptyLedger.set hashK {} (str "test") [str "k"] [str "v"] (envA 1)) = true := by
  decide +kernel

/-- The execution that writes the document. -/
def executionA (b : UInt8)
    (h : added (emptyLedger.set hashK {} (str "test") [str "k"] [str "v"] (envA b)) = true) :
    Execution hashK where
  cfg := {}
  q := emptyLedger
  name := str "test"
  keys := [str "k"]
  vals := [str "v"]
  env := envA b
  keys_ne_nil := by simp
  returns := exists_of_added h
  call := callA b
  seqno_lt := Nat.two_pow_pos 64

theorem blockHash_callA {b : UInt8} {h : Hash}
    (heval : (calculateBlockHash hashK (callA b).leaves (str "test") 0 {}).map Prod.fst = .ok h) :
    (callA b).blockHash = h := by
  rw [calculateBlockHash_eq hashK _ _ (callA b).leaves_ne_nil] at heval
  exact Except.ok.inj heval

theorem blockHash_callA_zero :
    (callA 0).blockHash = Hash.fromBase32 (str "2BG6TMA7VZF7UIGDKZ2KGANWN6A3ECQ6") :=
  blockHash_callA (by decide +kernel)

theorem blockHash_callA_one :
    (callA 1).blockHash = Hash.fromBase32 (str "HO6ILBLMSNXRKU4VPWZQIB6M5GPBZAGZ") :=
  blockHash_callA (by decide +kernel)

/-- The block does not depend on the byte. -/
theorem block_executionA {b : UInt8}
    (h : added (emptyLedger.set hashK {} (str "test") [str "k"] [str "v"] (envA b)) = true) :
    (executionA b h).block
      = ⟨[docA], hashK (str "0"), ⟨0, UInt64.toNat 1700000000000⟩, str "test", 0,
        UInt64.toNat 1700000000000⟩ :=
  rfl

theorem blockHash_executionA {b : UInt8}
    (h : added (emptyLedger.set hashK {} (str "test") [str "k"] [str "v"] (envA b)) = true) :
    (executionA b h).blockHash = (callA b).blockHash :=
  rfl

/-- The same block with two block hashes. -/
theorem blockHash_not_function :
    (executionA 0 added_callA_zero).block = (executionA 1 added_callA_one).block ∧
      (executionA 0 added_callA_zero).blockHash ≠ (executionA 1 added_callA_one).blockHash := by
  constructor
  · rw [block_executionA, block_executionA]
  · rw [blockHash_executionA, blockHash_executionA, blockHash_callA_zero, blockHash_callA_one]
    decide +kernel

end QLDB

end LedgerDatabase.Qldb
