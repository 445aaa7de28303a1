import LedgerDatabase.Qldb.Equiv.DigestTree
import LedgerDatabase.Qldb.Equiv.Names

/-!
# What the store has of a ledger

A ledger is a chain of blocks (`Sealed`).  The store has its tip, every block with the tree over its
leaves, the tree over the block hashes, and the root of that one as the digest (`Built`).  A call on
the ledger adds one block to the chain (`Built.addBlock`), and a call on another one changes nothing
of it (`Built.other`), so it holds in every run on any ledgers (`Built.callAll`).
-/

namespace LedgerDatabase.Qldb.QLDB

open DB (AgreeOff)
open PairTree
open Ledgerdb.MerkleTree (hashLevel merkleRoot height)

/-! ### Runs on several ledgers -/

/-- One call after the other, each with the ledger it is made on. -/
def callAll (H : Bytes → Hash) (cfg : BPlusConfig) (q : QLDB) (cs : List (Bytes × SetCall)) :
    Except Fault QLDB :=
  cs.foldlM (fun q c => do return (← q.set H cfg c.1 c.2.keys c.2.vals c.2.env).2) q

/-- The calls on a ledger that add a block. -/
def callsOn (name : Bytes) (cs : List (Bytes × SetCall)) : List SetCall :=
  (cs.filter fun c => c.1 = name ∧ c.2.entries ≠ []).map Prod.snd

theorem callsOn_cons (name : Bytes) (c : Bytes × SetCall) (cs : List (Bytes × SetCall)) :
    callsOn name (c :: cs) =
      (if c.1 = name ∧ c.2.entries ≠ [] then [c.2] else []) ++ callsOn name cs := by
  rw [callsOn, List.filter_cons]
  by_cases h : c.1 = name ∧ c.2.entries ≠ []
  · rw [if_pos (by simpa using h), if_pos h]
    rfl
  · rw [if_neg (by simpa using h), if_neg h]
    rfl

/-! ### The chain of blocks -/

/-- A block: the call that adds it, its documents, and the hash of the block before it. -/
structure Sealed where
  call : SetCall
  documents : List Bytes
  prevHash : Hash

namespace Sealed

variable (H : Bytes → Hash) (name : Bytes)

/-- The leaves of its tree. -/
def leaves (b : Sealed) (seqno : ℕ) : List Hash :=
  blockLeaves H b.documents b.prevHash name seqno b.call.env

/-- Its hash. -/
def hash (b : Sealed) (seqno : ℕ) : Hash := merkleRoot H (b.leaves H name seqno)

theorem leaves_ne_nil (b : Sealed) (seqno : ℕ) : b.leaves H name seqno ≠ [] := by
  simp [leaves, blockLeaves]

end Sealed

variable (H : Bytes → Hash) (name : Bytes)

/-- The block hashes of a chain. -/
def hashes (bs : List Sealed) : List Hash := bs.mapIdx fun i b => b.hash H name i

theorem length_hashes (bs : List Sealed) : (hashes H name bs).length = bs.length :=
  List.length_mapIdx

theorem hashes_concat (bs : List Sealed) (b : Sealed) :
    hashes H name (bs ++ [b]) = hashes H name bs ++ [b.hash H name bs.length] := by
  rw [hashes, List.mapIdx_concat, hashes]

theorem hashes_ne_nil {bs : List Sealed} (h : bs ≠ []) : hashes H name bs ≠ [] := by
  rw [Ne, ← List.length_eq_zero_iff, length_hashes, List.length_eq_zero_iff]
  exact h

/-- What the block after a chain has as the hash of the block before it. -/
def nextPrevHash (bs : List Sealed) : Hash := (hashes H name bs).getLast?.getD (H (str "0"))

/-- A block continues a chain: it has the documents of its call, in order. -/
structure Sealed.Continues (b : Sealed) (before : List Sealed) : Prop where
  prevHash : b.prevHash = nextPrevHash H name before
  nonempty : b.call.entries ≠ []
  length : b.documents.length = b.call.entries.length
  document : ∀ j d, b.documents[j]? = some d → ∃ key val version, b.call.entries[j]? = some (key, val) ∧
    Document.encode key val ⟨name, before.length⟩ ⟨j, version, b.call.env.now.toNat⟩ = .ok d

/-- The record of a block. -/
def Sealed.Stored (b : Sealed) (seqno : ℕ) (db : DB) : Prop :=
  ∃ c, db.chunkAt (blockKey name seqno) = some c ∧
    QLBlock.encode ⟨name, seqno⟩ ⟨0, b.call.env.now.toNat⟩ b.call.env.now.toNat (b.hash H name seqno)
      b.prevHash b.documents = .ok c

/-- **The store has the ledger** with the given blocks. -/
structure Built (q : QLDB) (bs : List Sealed) : Prop where
  tip : q.db.getString name = (hashes H name bs).getLast?.map (tipRecord (bs.length - 1))
  digest : q.db.getString (digestKey name) =
    if bs = [] then none else some (merkleRoot H (hashes H name bs)).toBase32
  digestTree : HasTree H (digestNodeKey name) (hashes H name bs) q.db
  continues : ∀ i (b : Sealed), bs[i]? = some b → b.Continues H name (bs.take i)
  stored : ∀ i (b : Sealed), bs[i]? = some b → b.Stored H name i q.db
  blockTree : ∀ i (b : Sealed), bs[i]? = some b → HasTree H (blockNodeKey name i) (b.leaves H name i) q.db

variable {H name} {cfg : BPlusConfig} {q q' : QLDB} {bs : List Sealed}

/-! ### Reading the tip -/

theorem length_toDecimal_le {n : ℕ} (h : n < 2 ^ 64) : (toDecimal n).length ≤ 20 := by
  rw [toDecimal, List.length_map]
  exact (Nat.length_toDigits_le_iff (by omega) (by omega)).mpr (lt_of_lt_of_le h (by norm_num))

/-- The next block has the next number, and the hash of the last one. -/
theorem nextBlock_tipRecord_eq {seqno : ℕ} (h : seqno < 2 ^ 64) (blockHash : Hash) :
    nextBlock H (tipRecord seqno blockHash) = .ok (seqno + 1, blockHash) := by
  have hne : tipRecord seqno blockHash ≠ [] := by
    simp [tipRecord, toDecimal_ne_nil]
  have hlen := length_toDecimal_le h
  have hrest : substrFrom (tipRecord seqno blockHash)
      ((find (tipRecord seqno blockHash) 124 + 1) % 2 ^ 64) = .ok blockHash.toBase32 := by
    rw [find_tipRecord, Nat.mod_eq_of_lt (by omega), substrFrom, if_neg, tipRecord]
    · rw [List.drop_left' (by rw [List.length_append]; rfl)]
    · rw [tipRecord, List.length_append, List.length_append]
      show ¬ _ + 1 + _ < _
      omega
  rw [nextBlock, if_neg hne]
  simp only [substr_tipRecord, ok_bind, stoul_toDecimal, hrest, Hash.fromBase32_toBase32]
  rfl

theorem Built.nextBlock_eq (h : Built H name q bs) (hlen : bs.length ≤ 2 ^ 64) :
    nextBlock H ((q.db.getString name).getD []) = .ok (bs.length, nextPrevHash H name bs) := by
  rw [h.tip, nextPrevHash]
  cases hlast : (hashes H name bs).getLast? with
  | none =>
    have hnil : bs = [] := by
      by_contra hne
      exact hashes_ne_nil H name hne (List.getLast?_eq_none_iff.mp hlast)
    rw [hnil]
    rfl
  | some x =>
    have hpos : 0 < bs.length := by
      rw [← length_hashes H name bs, List.length_pos_iff]
      rintro hnil
      rw [hnil] at hlast
      cases hlast
    rw [Option.map_some, Option.getD_some, nextBlock_tipRecord_eq (by omega), Option.getD_some,
      Nat.sub_add_cancel hpos]

/-! ### What a call leaves alone -/

/-- The names of the two indexes. -/
structure Prefixes (q : QLDB) : Prop where
  indexed : q.indexed.pre = str "COMMITTED_"
  history : q.history.pre = str "HISTORY_"

/-- A name of a node of an index. -/
def IsIndexName (y : Bytes) : Prop :=
  QLBTree.IsName (str "COMMITTED_") y ∨ QLBTree.IsName (str "HISTORY_") y

/-- Documents are created without a write. -/
theorem sameAnswers_createDocuments {seqno : ℕ} {now : UInt64} :
    ∀ {entries created : List (Bytes × Bytes)} {i : ℕ} {q q' : QLDB},
      createDocuments name seqno now i entries q = .ok (created, q') →
      q.db.SameAnswers q'.db ∧ q'.indexed = q.indexed ∧ q'.history = q.history := by
  intro entries
  induction entries with
  | nil =>
    intro created i q q' h
    obtain ⟨-, rfl⟩ := Prod.mk.inj (Except.ok.inj h)
    exact ⟨DB.SameAnswers.refl _, rfl, rfl⟩
  | cons e rest ih =>
    obtain ⟨key, val⟩ := e
    intro created i q q' h
    obtain ⟨⟨latest, q₁⟩, hlatest, h⟩ := bind_eq_ok_iff.mp h
    obtain ⟨document, -, h⟩ := bind_eq_ok_iff.mp h
    obtain ⟨⟨documents, q₂⟩, hrest, h⟩ := bind_eq_ok_iff.mp h
    obtain ⟨-, rfl⟩ := Prod.mk.inj (Except.ok.inj h)
    obtain ⟨⟨r, db₁⟩, hget, hlatest⟩ := bind_eq_ok_iff.mp hlatest
    obtain ⟨-, rfl⟩ := Prod.mk.inj (Except.ok.inj hlatest)
    obtain ⟨hsame, hindexed, hhistory⟩ := ih hrest
    exact ⟨(QLBTree.tryGet_sameAnswers hget).trans hsame, hindexed, hhistory⟩

/-- Up to its second index a call writes to the indexes. -/
theorem Call.agreeOff {entries : List (Bytes × Bytes)} {env : Env} (hq : Prefixes q)
    (c : Call H cfg q name entries env) :
    AgreeOff IsIndexName q.db c.db₂ ∧ c.indexed.pre = str "COMMITTED_" ∧
      c.history.pre = str "HISTORY_" := by
  obtain ⟨hsame, hindexed, hhistory⟩ := sameAnswers_createDocuments c.created_eq
  obtain ⟨b, hset⟩ := c.indexed_eq
  obtain ⟨b', hset'⟩ := c.history_eq
  obtain ⟨hpre, hagree⟩ := QLBTree.agreeOff_set hset
  obtain ⟨hpre', hagree'⟩ := QLBTree.agreeOff_set hset'
  rw [hindexed, hq.indexed] at hpre hagree
  rw [hhistory, hq.history] at hpre' hagree'
  refine ⟨?_, hpre, hpre'⟩
  apply (AgreeOff.of_sameAnswers hsame).trans
  exact (hagree.mono fun _ => Or.inl).trans (hagree'.mono fun _ => Or.inr)

theorem Prefixes.addBlock {entries : List (Bytes × Bytes)} {env : Env} (hq : Prefixes q)
    (hadd : addBlock H cfg q name entries env = .ok q') : Prefixes q' := by
  obtain ⟨c, -, -, -, -, rfl⟩ := addBlock_inv hadd
  obtain ⟨-, hindexed, hhistory⟩ := c.agreeOff hq
  exact ⟨hindexed, hhistory⟩

/-- Nothing was written to the records of the ledger. -/
theorem Built.congr (h : Built H name q bs)
    (hstring : ∀ r : Record, q'.db.getString (r.key name) = q.db.getString (r.key name))
    (hchunk : ∀ i, q'.db.chunkAt (blockKey name i) = q.db.chunkAt (blockKey name i)) :
    Built H name q' bs where
  tip := (hstring .tip).trans h.tip
  digest := (hstring .digest).trans h.digest
  digestTree l hl i s hs := (hstring (.digestNode _ _)).trans (h.digestTree l hl i s hs)
  continues := h.continues
  stored i b hb := by
    obtain ⟨c, hc, hencode⟩ := h.stored i b hb
    exact ⟨c, (hchunk i).trans hc, hencode⟩
  blockTree i b hb l hl j s hs := (hstring (.blockNode _ _ _)).trans (h.blockTree i b hb l hl j s hs)

theorem Plain.not_isIndexName (h : Plain name) (r : Record) : ¬ IsIndexName (r.key name) := by
  obtain ⟨hcommitted, hhistory⟩ := h.apart _ (ledgerName_iff.mpr ⟨r, rfl⟩)
  rintro (hname | hname)
  · exact hcommitted hname
  · exact hhistory hname

/-- **A call on another ledger** leaves this one as it is. -/
theorem Built.other {other : Bytes} {entries : List (Bytes × Bytes)} {env : Env}
    (h : Built H name q bs) (hq : Prefixes q) (hname : Plain name) (hother : Plain other)
    (hne : name ≠ other) (hadd : QLDB.addBlock H cfg q other entries env = .ok q') :
    Built H name q' bs := by
  obtain ⟨c, hagree, -⟩ := addBlock_agree hadd
  obtain ⟨hagree', -⟩ := c.agreeOff hq
  have hnot := hname.not_ledgerName hother hne
  have hnot' := hname.not_isIndexName
  apply h.congr
  · intro r
    exact (hagree.getString _ (hnot r)).trans (hagree'.getString _ (hnot' r))
  · intro i
    exact (hagree.chunkAt _ (hnot (.block i))).trans (hagree'.chunkAt _ (hnot' (.block i)))

/-! ### A call on the ledger -/

theorem Plain.key_ne (h : Plain name) (r r' : Record) (hne : r ≠ r') : r.key name ≠ r'.key name :=
  fun heq => hne (Record.key_inj h h heq).2

theorem Plain.digestNodeKey_inj (h : Plain name) (l i l' i' : ℕ)
    (heq : digestNodeKey name l i = digestNodeKey name l' i') : l = l' ∧ i = i' := by
  have hkey : (Record.digestNode l i).key name = (Record.digestNode l' i').key name := heq
  injection (Record.key_inj h h hkey).2 with hl hi
  exact ⟨hl, hi⟩

theorem Plain.blockNodeKey_inj (h : Plain name) (seqno l i l' i' : ℕ)
    (heq : blockNodeKey name seqno l i = blockNodeKey name seqno l' i') : l = l' ∧ i = i' := by
  have hkey : (Record.blockNode seqno l i).key name = (Record.blockNode seqno l' i').key name := heq
  injection (Record.key_inj h h hkey).2 with _ hl hi
  exact ⟨hl, hi⟩

/-- **`calculateDigest`** in a store with the tree over the blocks so far. -/
theorem calculateDigest_spec {xs : List Hash} {x prev : Hash} {db : DB} (hname : Plain name)
    (h : HasTree H (digestNodeKey name) xs db) (hprev : xs ≠ [] → xs.getLast? = some prev) :
    calculateDigest H x prev name xs.length db =
      .ok ((db.putStrings (edgePuts H (digestNodeKey name) 0 (height (xs ++ [x]))
        (xs ++ [x]))).putString (digestKey name) (merkleRoot H (xs ++ [x])).toBase32) := by
  have hzero : xs.length / 2 ^ 0 = xs.length := by rw [Nat.pow_zero, Nat.div_one]
  have hlast : (hashLevel H 0 (xs ++ [x]))[xs.length / 2 ^ 0]? = some x := by
    rw [hzero]
    exact List.getElem?_concat_length
  have hread : ∀ l i s, i < xs.length / 2 ^ (l + 1) → (nodes H l (xs ++ [x]))[i]? = some s →
      db.getString (digestNodeKey name (l + 1) i) = some s := by
    intro l i s hi hs
    obtain ⟨hl, hs'⟩ := nodes_left hi hs
    exact h l hl i s hs'
  have hloop : digestLoop H prev name (xs.length + 1) 0 (xs.length / 2 ^ 0) x db = _ :=
    digestLoop_spec hname.digestNodeKey_inj hprev (by rw [hzero]; exact Nat.lt_succ_self _)
      (Nat.zero_le _) hlast hread
  rw [hzero, Nat.sub_zero] at hloop
  rw [calculateDigest, hloop]
  rfl

/-- What a call on a ledger with the blocks `bs` does to its records: it adds the block `b`. -/
structure Adds (H : Bytes → Hash) (name : Bytes) (bs : List Sealed) (b : Sealed) (db db' : DB) :
    Prop where
  tip : db'.getString name = some (tipRecord bs.length (b.hash H name bs.length))
  digest : db'.getString (digestKey name) =
    some (merkleRoot H (hashes H name (bs ++ [b]))).toBase32
  digestTree : HasTree H (digestNodeKey name) (hashes H name (bs ++ [b])) db'
  stored : b.Stored H name bs.length db'
  blockTree : HasTree H (blockNodeKey name bs.length) (b.leaves H name bs.length) db'
  otherChunk : ∀ i, i ≠ bs.length → db'.chunkAt (blockKey name i) = db.chunkAt (blockKey name i)
  otherTree : ∀ i, i ≠ bs.length → ∀ l j,
    db'.getString (blockNodeKey name i l j) = db.getString (blockNodeKey name i l j)

/-- The tree over a block is written elsewhere than the rest. -/
theorem read_blockPuts {db db₂ : DB} (hname : Plain name) (hagree : AgreeOff IsIndexName db db₂)
    (seqno n : ℕ) (xs : List Hash) (r : Record) (hr : ∀ l i, r ≠ .blockNode seqno l i) :
    (db₂.putStrings (treePuts H (blockNodeKey name seqno) 0 n xs)).getString (r.key name) =
        db.getString (r.key name) ∧
      (db₂.putStrings (treePuts H (blockNodeKey name seqno) 0 n xs)).chunkAt (r.key name) =
        db.chunkAt (r.key name) := by
  have hnot : r.key name ∉ (treePuts H (blockNodeKey name seqno) 0 n xs).map Prod.fst := by
    intro hmem
    obtain ⟨w, hw, heq⟩ := List.mem_map.mp hmem
    obtain ⟨l, -, -, i, t, -, rfl⟩ := mem_treePuts.mp hw
    exact hname.key_ne _ (.blockNode _ _ _) (hr _ _) heq.symm
  have hindex := hname.not_isIndexName r
  exact ⟨(DB.getString_putStrings_of_not_mem _ _ hnot).trans (hagree.getString _ hindex),
    (DB.chunkAt_putStrings_of_not_mem _ _ hnot).trans (hagree.chunkAt _ hindex)⟩

theorem HasTree.blockPuts {db db₂ : DB} {xs : List Hash}
    (h : HasTree H (digestNodeKey name) xs db) (hname : Plain name)
    (hagree : AgreeOff IsIndexName db db₂) (seqno n : ℕ) (ys : List Hash) :
    HasTree H (digestNodeKey name) xs
      (db₂.putStrings (treePuts H (blockNodeKey name seqno) 0 n ys)) :=
  Qldb.HasTree.congr h fun l i => (read_blockPuts hname hagree seqno n ys (.digestNode l i)
    fun _ _ => Record.noConfusion).1

/-- The writes of a call: the tree over the block, the right edge of the tree over the blocks, the
digest, the block and the tip. -/
theorem adds_of_writes {b : Sealed} {db db₂ : DB} {block : Bytes} (hname : Plain name)
    (hagree : AgreeOff IsIndexName db db₂)
    (htree : HasTree H (digestNodeKey name) (hashes H name bs) db)
    (hblock : QLBlock.encode ⟨name, bs.length⟩ ⟨0, b.call.env.now.toNat⟩ b.call.env.now.toNat
      (b.hash H name bs.length) b.prevHash b.documents = .ok block) :
    Adds H name bs b db
      (((((db₂.putStrings (treePuts H (blockNodeKey name bs.length) 0
        (height (b.leaves H name bs.length)) (b.leaves H name bs.length))).putStrings
          (edgePuts H (digestNodeKey name) 0 (height (hashes H name (bs ++ [b])))
            (hashes H name (bs ++ [b])))).putString (digestKey name)
        (merkleRoot H (hashes H name (bs ++ [b]))).toBase32).putChunk (blockKey name bs.length)
          block).putString name (tipRecord bs.length (b.hash H name bs.length))) := by
  set db₃ := db₂.putStrings (treePuts H (blockNodeKey name bs.length) 0
    (height (b.leaves H name bs.length)) (b.leaves H name bs.length)) with hdb₃
  set db₄ := db₃.putStrings (edgePuts H (digestNodeKey name) 0 (height (hashes H name (bs ++ [b])))
    (hashes H name (bs ++ [b]))) with hdb₄
  set db₆ := (db₄.putString (digestKey name)
    (merkleRoot H (hashes H name (bs ++ [b]))).toBase32).putChunk (blockKey name bs.length) block
    with hdb₆
  have hread₃ := read_blockPuts (H := H) hname hagree bs.length
    (height (b.leaves H name bs.length)) (b.leaves H name bs.length)
  have hread₄ : ∀ r : Record, (∀ l i, r ≠ .digestNode l i) →
      db₄.getString (r.key name) = db₃.getString (r.key name) ∧
        db₄.chunkAt (r.key name) = db₃.chunkAt (r.key name) := by
    intro r hr
    have hnot : r.key name ∉ (edgePuts H (digestNodeKey name) 0
        (height (hashes H name (bs ++ [b]))) (hashes H name (bs ++ [b]))).map Prod.fst := by
      intro hmem
      obtain ⟨w, hw, heq⟩ := List.mem_map.mp hmem
      obtain ⟨l, -, -, rfl⟩ := mem_edgePuts.mp hw
      exact hname.key_ne _ (.digestNode _ _) (hr _ _) heq.symm
    exact ⟨DB.getString_putStrings_of_not_mem _ _ hnot, DB.chunkAt_putStrings_of_not_mem _ _ hnot⟩
  -- the nodes are not written after their trees
  have hlast : ∀ r : Record, r ≠ .tip → r ≠ .digest → r ≠ .block bs.length →
      (db₆.putString name (tipRecord bs.length (b.hash H name bs.length))).getString (r.key name) =
        db₄.getString (r.key name) := by
    intro r htip hdig hblk
    have htip' : r.key name ≠ name := hname.key_ne r .tip htip
    have hdig' : r.key name ≠ digestKey name := hname.key_ne r .digest hdig
    have hblk' : r.key name ≠ blockKey name bs.length := hname.key_ne r (.block _) hblk
    rw [DB.getString_putString, if_neg htip', hdb₆, DB.getString_putChunk, if_neg hblk',
      DB.getString_putString, if_neg hdig']
  have hdigest : digestKey name ≠ name := hname.key_ne .digest .tip Record.noConfusion
  have hblk : ∀ i, blockKey name i ≠ name := fun i => hname.key_ne (.block i) .tip Record.noConfusion
  have hblkdig : ∀ i, blockKey name i ≠ digestKey name := fun i =>
    hname.key_ne (.block i) .digest Record.noConfusion
  refine ⟨?_, ?_, ?_, ⟨block, ?_, hblock⟩, ?_, fun i hi => ?_, fun i hi l j => ?_⟩
  · rw [DB.getString_putString, if_pos rfl]
  · rw [DB.getString_putString, if_neg hdigest, hdb₆, DB.getString_putChunk,
      if_neg (hblkdig _).symm, DB.getString_putString, if_pos rfl]
  · have htree₃ := HasTree.blockPuts htree hname hagree bs.length (height (b.leaves H name bs.length))
      (b.leaves H name bs.length)
    have hedge := Qldb.HasTree.append_edge hname.digestNodeKey_inj htree₃
      (x := b.hash H name bs.length)
    rw [← hashes_concat] at hedge
    exact hedge.congr fun l i =>
      hlast (.digestNode l i) Record.noConfusion Record.noConfusion Record.noConfusion
  · rw [DB.chunkAt_putString_of_ne _ _ (hblk _), hdb₆, DB.chunkAt_putChunk, if_pos rfl]
  · intro l hl i s hs
    have hread := hlast (.blockNode bs.length (l + 1) i) Record.noConfusion Record.noConfusion
      Record.noConfusion
    apply (hread.trans (hread₄ (.blockNode _ _ _) fun _ _ => Record.noConfusion).1).trans
    apply DB.getString_putStrings_of_mem _ _ (nodup_treePuts (hname.blockNodeKey_inj _) _ _ _)
    exact mem_treePuts.mpr ⟨l, Nat.zero_le l, by omega, i, s, hs, rfl⟩
  · have hne : blockKey name i ≠ blockKey name bs.length :=
      hname.key_ne (.block i) (.block _) fun heq => hi (by injection heq)
    rw [DB.chunkAt_putString_of_ne _ _ (hblk _), hdb₆, DB.chunkAt_putChunk, if_neg hne,
      DB.chunkAt_putString_of_ne _ _ (hblkdig _)]
    exact (hread₄ (.block i) fun _ _ => Record.noConfusion).2.trans
      (hread₃ (.block i) fun _ _ => Record.noConfusion).2
  · have hread := hlast (.blockNode i l j) Record.noConfusion Record.noConfusion Record.noConfusion
    apply (hread.trans (hread₄ (.blockNode _ _ _) fun _ _ => Record.noConfusion).1).trans
    exact (hread₃ (.blockNode i l j) fun _ _ heq => hi (by injection heq)).1

theorem Built.concat {b : Sealed} (h : Built H name q bs) (hadds : Adds H name bs b q.db q'.db)
    (hcontinues : b.Continues H name bs) : Built H name q' (bs ++ [b]) := by
  have hcases : ∀ {i : ℕ} {b' : Sealed}, (bs ++ [b])[i]? = some b' →
      i < bs.length ∧ bs[i]? = some b' ∨ i = bs.length ∧ b' = b := by
    intro i b' hb
    rcases Nat.lt_trichotomy i bs.length with hlt | heq | hgt
    · rw [List.getElem?_append_left hlt] at hb
      exact Or.inl ⟨hlt, hb⟩
    · rw [heq, List.getElem?_concat_length] at hb
      exact Or.inr ⟨heq, (Option.some.inj hb).symm⟩
    · rw [List.getElem?_eq_none (by rw [List.length_append, List.length_singleton]; omega)] at hb
      cases hb
  constructor
  case tip =>
    rw [hashes_concat, List.getLast?_concat, List.length_append, List.length_singleton,
      Nat.add_sub_cancel]
    exact hadds.tip
  case digest =>
    rw [if_neg (List.append_ne_nil_of_right_ne_nil _ (List.cons_ne_nil _ _))]
    exact hadds.digest
  case digestTree => exact hadds.digestTree
  case continues =>
    intro i b' hb
    rcases hcases hb with ⟨hlt, hb⟩ | ⟨rfl, rfl⟩
    · rw [List.take_append_of_le_length hlt.le]
      exact h.continues i b' hb
    · rw [List.take_left]
      exact hcontinues
  case stored =>
    intro i b' hb
    rcases hcases hb with ⟨hlt, hb⟩ | ⟨rfl, rfl⟩
    · obtain ⟨c, hc, hencode⟩ := h.stored i b' hb
      exact ⟨c, (hadds.otherChunk i hlt.ne).trans hc, hencode⟩
    · exact hadds.stored
  case blockTree =>
    intro i b' hb
    rcases hcases hb with ⟨hlt, hb⟩ | ⟨rfl, rfl⟩
    · exact (h.blockTree i b' hb).congr (hadds.otherTree i hlt.ne)
    · exact hadds.blockTree

/-- **A call on the ledger** adds its block. -/
theorem Built.addBlock {c : SetCall} (h : Built H name q bs) (hq : Prefixes q) (hname : Plain name)
    (hlen : bs.length ≤ 2 ^ 64) (hne : c.entries ≠ [])
    (hadd : QLDB.addBlock H cfg q name c.entries c.env = .ok q')
    (s : Call H cfg q name c.entries c.env) :
    Built H name q' (bs ++ [⟨c, s.documents, s.prevHash⟩]) := by
  obtain ⟨s', db₄, block, hdigest, hblock, rfl⟩ := addBlock_inv hadd
  obtain rfl := s.eq s'
  obtain ⟨hseqno, hprev⟩ : s.seqno = bs.length ∧ s.prevHash = nextPrevHash H name bs :=
    Prod.mk.inj (Except.ok.inj (s.nextBlock_eq.symm.trans (h.nextBlock_eq hlen)))
  obtain ⟨hcount, hdocs⟩ := createDocuments_spec s.created_eq
  obtain ⟨hagree, -⟩ := s.agreeOff hq
  let b : Sealed := ⟨c, s.documents, s.prevHash⟩
  have hleaves : s.leaves = b.leaves H name bs.length := by
    rw [← hseqno]
    rfl
  have hhash : s.blockHash = b.hash H name bs.length := by
    rw [← hseqno]
    rfl
  have hdb₃ : s.db₃ = s.db₂.putStrings (treePuts H (blockNodeKey name bs.length) 0
      (height (b.leaves H name bs.length)) (b.leaves H name bs.length)) := by
    rw [Call.db₃, hseqno, hleaves]
  rw [hseqno, hhash, hdb₃] at hdigest
  rw [hseqno, hhash] at hblock
  have hcontinues : b.Continues H name bs := by
    refine ⟨hprev, hne, by rw [← hcount]; exact List.length_map _, fun j d hd => ?_⟩
    obtain ⟨key, val, version, hentry, hencode⟩ := hdocs j d hd
    rw [hseqno, Nat.zero_add] at hencode
    exact ⟨key, val, version, hentry, hencode⟩
  have hlast : hashes H name bs ≠ [] → (hashes H name bs).getLast? = some s.prevHash := by
    intro hne
    rw [hprev, nextPrevHash, List.getLast?_eq_some_getLast hne]
    rfl
  have htree₃ := HasTree.blockPuts h.digestTree hname hagree bs.length
    (height (b.leaves H name bs.length)) (b.leaves H name bs.length)
  have hspec := calculateDigest_spec (x := b.hash H name bs.length) hname htree₃ hlast
  rw [length_hashes, ← hashes_concat] at hspec
  obtain rfl := Except.ok.inj (hdigest.symm.trans hspec)
  have hadds := adds_of_writes (b := b) hname hagree h.digestTree hblock
  rw [hseqno, hhash]
  exact h.concat hadds hcontinues

/-! ### Runs -/

/-- A new ledger has no blocks. -/
theorem built_emptyLedger (H : Bytes → Hash) (name : Bytes) : Built H name emptyLedger [] where
  tip := rfl
  digest := rfl
  digestTree l hl := absurd hl (Nat.not_lt_zero l)
  continues i b hb := by cases hb
  stored i b hb := by cases hb
  blockTree i b hb := by cases hb

/-- **A run on any ledgers** adds to each one the blocks of its calls. -/
theorem Built.callAll {cs : List (Bytes × SetCall)} : ∀ {q : QLDB} {bs : List Sealed},
    Built H name q bs → Prefixes q → Plain name → (∀ c ∈ cs, Plain c.1) →
      bs.length + (callsOn name cs).length ≤ 2 ^ 64 → QLDB.callAll H cfg q cs = .ok q' →
      ∃ bs', bs'.map Sealed.call = bs.map Sealed.call ++ callsOn name cs ∧ Built H name q' bs' := by
  induction cs with
  | nil =>
    intro q bs h _ _ _ _ hrun
    obtain rfl := Except.ok.inj hrun
    exact ⟨bs, (List.append_nil _).symm, h⟩
  | cons c cs ih =>
    intro q bs h hq hname hplain hlen hrun
    rw [QLDB.callAll, List.foldlM_cons] at hrun
    obtain ⟨q₁, hstep, hrest⟩ := bind_eq_ok_iff.mp hrun
    have hcall := SetCall.run_eq hstep
    have hplain' : ∀ c ∈ cs, Plain c.1 := fun c hc => hplain c (List.mem_cons_of_mem _ hc)
    rw [callsOn_cons] at hlen ⊢
    by_cases hempty : c.2.entries = []
    · rw [if_pos hempty] at hcall
      rw [if_neg fun hon => hon.2 hempty] at hlen ⊢
      rw [hcall] at hrest
      exact ih h hq hname hplain' hlen hrest
    · rw [if_neg hempty] at hcall
      by_cases hname' : c.1 = name
      · -- the call adds a block here
        rw [if_pos ⟨hname', hempty⟩] at hlen ⊢
        rw [List.length_append, List.length_singleton] at hlen
        rw [hname'] at hcall
        obtain ⟨s, -⟩ := addBlock_inv hcall
        have h₁ := h.addBlock hq hname (by omega) hempty hcall s
        have hlen' : (bs ++ [Sealed.mk c.2 s.documents s.prevHash]).length + (callsOn name cs).length ≤ 2 ^ 64 := by
          rw [List.length_append, List.length_singleton]
          omega
        obtain ⟨bs', hmap, h'⟩ := ih h₁ (hq.addBlock hcall) hname hplain' hlen' hrest
        refine ⟨bs', ?_, h'⟩
        rw [hmap, List.map_append, List.append_assoc, List.map_singleton]
      · rw [if_neg fun hon => hname' hon.1] at hlen ⊢
        have hother := h.other hq hname (hplain c List.mem_cons_self) (Ne.symm hname') hcall
        exact ih hother (hq.addBlock hcall) hname hplain' hlen hrest

/-- What the store has of a ledger after a run. -/
theorem built_callAll {cs : List (Bytes × SetCall)} (hname : Plain name)
    (hplain : ∀ c ∈ cs, Plain c.1) (hlen : (callsOn name cs).length ≤ 2 ^ 64)
    (hrun : callAll H cfg emptyLedger cs = .ok q) :
    ∃ bs, bs.map Sealed.call = callsOn name cs ∧ Built H name q bs :=
  (built_emptyLedger H name).callAll ⟨rfl, rfl⟩ hname hplain
    (by rw [List.length_nil, Nat.zero_add]; exact hlen) hrun

end LedgerDatabase.Qldb.QLDB
