import LedgerDatabase.Distributed.QldbStore
import LedgerDatabase.Qldb.Equiv.Latest
import LedgerDatabase.Qldb.Equiv.Sound

/-!
# What the client of the `AMZQLDB` build gets

The store refines a map: a read answers with the last values, and every proof in its reply passes the
check of the callback against the digest in the reply (`store_answers`).

The reply to a commit is filled by several calls, each with proofs against the digest at its time, and
the last one sets the digest.  So after a commit that reads a value and writes another one the client
checks the proof of the read against a digest that it does not belong to (`commit_fails`).
-/

namespace LedgerDatabase.Distributed.QldbStore

open Qldb Qldb.QLDB
open QLBTree (lastValue assignAll lookup_assignAll_lastValue Within)
open QLDBReply (prover verifyStatus)
open Ledgerdb.MerkleTree (merkleRoot)

variable {H : Bytes → Hash} {cfg : BPlusConfig} {q q' : QLDB} {cs : List (Bytes × SetCall)}
  {bs : Bytes → List Sealed}

/-! ### The entry of a reply -/

theorem sizeOfInt32_ofNat {p : ℕ} (hp : p ≤ 1) : sizeOfInt32 (Int32.ofNat p) = p := by
  interval_cases p <;> decide

/-- **The client gets back the proof** that `getProof` made, for a document of the ledger. -/
theorem prover_proofEntry {key d : Bytes} {r : QLProofResult} (hkey : r.data.key = key)
    (hledger : r.addr.ledgerName = ledger) (haddr : r.addr = (Document.ofChunk d).addr)
    (hmeta : r.metadata = (Document.ofChunk d).metadata) (hpos : ∀ p ∈ r.pos, p ≤ 1) :
    prover (proofEntry key r) = r := by
  obtain ⟨⟨key', val⟩, ⟨name, seqNo⟩, ⟨docSeq, version, time⟩, proof, pos⟩ := r
  have hseqNo : seqNo < 2 ^ 64 := by
    rw [show seqNo = (Document.ofChunk d).addr.seqNo from congrArg BlockAddress.seqNo haddr]
    exact dataNat_lt _ _ 8
  have hdocSeq : docSeq < 2 ^ 64 := by
    rw [show docSeq = (Document.ofChunk d).metadata.docSeq from congrArg MetaData.docSeq hmeta]
    exact lt_trans (dataNat_lt _ _ 4) (by decide)
  have hversion : version < 2 ^ 64 := by
    rw [show version = (Document.ofChunk d).metadata.version from congrArg MetaData.version hmeta]
    exact lt_trans (dataNat_lt _ _ 4) (by decide)
  have htime : time < 2 ^ 64 := by
    rw [show time = (Document.ofChunk d).metadata.time from congrArg MetaData.time hmeta]
    exact dataNat_lt _ _ 8
  have hmap : (pos.map Int32.ofNat).map sizeOfInt32 = pos := by
    rw [List.map_map]
    exact (List.map_congr_left fun p hp => sizeOfInt32_ofNat (hpos p hp)).trans (List.map_id pos)
  have hname : name = str "test" := hledger
  have hkey' : key' = key := hkey
  rw [prover, proofEntry]
  simp only [hmap, hname, hkey', UInt64.toNat_ofNat_of_lt' hseqNo, UInt64.toNat_ofNat_of_lt' hdocSeq,
    UInt64.toNat_ofNat_of_lt' hversion, UInt64.toNat_ofNat_of_lt' htime]

/-! ### Replies -/

/-- The keys and values of some proofs. -/
def contents (proofs : List QLDBProof) : List (Bytes × Bytes) := proofs.map fun p => (p.key, p.value)

/-- The check of the callbacks. -/
def Accepted (H : Bytes → Hash) (reply : QLDBReply) : Prop :=
  verifyStatus H (Hash.fromBase32 reply.hash) reply.qproof .pass = .ok .pass

theorem verifyStatus_of_verify {digest : Hash} {proofs : List QLDBProof} {vs : VerifyStatus}
    (h : ∀ p ∈ proofs, (prover p).verify H digest = .ok true) :
    verifyStatus H digest proofs vs = .ok vs := by
  induction proofs with
  | nil => rfl
  | cons p proofs ih =>
    rw [verifyStatus, h p List.mem_cons_self, ok_bind, if_pos rfl]
    exact ih fun p hp => h p (List.mem_cons_of_mem _ hp)

/-! ### The contents of the store -/

/-- The entries of all calls. -/
def writes (cs : List (Bytes × SetCall)) : List (Bytes × Bytes) := cs.flatMap fun c => c.2.entries

/-- The map that the calls leave. -/
def held (cs : List (Bytes × SetCall)) : StdMap Bytes := assignAll [] (writes cs)

theorem lookup_held (cs : List (Bytes × SetCall)) (key : Bytes) :
    (held cs).lookup key = (lastEntry cs key).map Prod.snd := by
  have hwrites : writes cs = (runEntries cs).map fun e => (e.1, e.2.2) := by
    rw [writes, runEntries, List.map_flatMap]
    simp only [List.map_map]
    exact congrArg (fun f => List.flatMap f cs) (funext fun c => (List.map_id _).symm)
  rw [held, lookup_assignAll_lastValue, List.lookup_nil, Option.or_none, lastEntry, hwrites,
    lastValue, ← List.map_reverse, lookup_map, Option.map_map]
  rfl

theorem ordered_held (cs : List (Bytes × SetCall)) : (held cs).Ordered :=
  QLBTree.ordered_assignAll StdMap.ordered_nil

theorem held_concat (cs : List (Bytes × SetCall)) (c : Bytes × SetCall) :
    held (cs ++ [c]) = assignAll (held cs) c.2.entries := by
  rw [held, writes, List.flatMap_append, List.flatMap_singleton, assignAll, List.foldl_append]
  rfl

/-- The calls of the store are all on its ledger. -/
structure Serves (H : Bytes → Hash) (q : QLDB) (cs : List (Bytes × SetCall))
    (bs : Bytes → List Sealed) : Prop extends Latest H q cs bs where
  bound : cs.length ≤ 2 ^ 64
  here : ∀ c ∈ cs, c.1 = ledger

theorem plain_ledger : Plain ledger := by decide

/-- The number of the last block. -/
def tip (bs : Bytes → List Sealed) : ℕ := (bs ledger).length - 1

/-- The digest of the ledger. -/
def digestOf (H : Bytes → Hash) (bs : Bytes → List Sealed) : Bytes :=
  if bs ledger = [] then [] else (merkleRoot H (hashes H ledger (bs ledger))).toBase32

theorem Serves.congr (h : Serves H q cs bs) (hsame : SameLedgers q q') : Serves H q' cs bs :=
  ⟨h.toLatest.congr hsame, h.bound, h.here⟩

theorem Serves.digest_eq (h : Serves H q cs bs) :
    q.digest ledger = .ok ⟨tip bs, digestOf H bs⟩ := by
  rw [(h.built ledger plain_ledger).digest_eq, digestOf, tip]
  split_ifs with hnil
  · rw [hnil]
    rfl
  · rfl

/-- An entry is on the ledger of the store. -/
theorem Serves.lastEntry_eq (h : Serves H q cs bs) {key name val : Bytes}
    (hlast : lastEntry cs key = some (name, val)) : name = ledger := by
  obtain ⟨e, hfind, he⟩ := Option.map_eq_some_iff.mp hlast
  have hmem := List.mem_reverse.mp (List.mem_of_find?_eq_some hfind)
  obtain ⟨c, hc, hmem⟩ := List.mem_flatMap.mp hmem
  obtain ⟨e', -, rfl⟩ := List.mem_map.mp hmem
  rw [← h.here c hc]
  exact (Prod.mk.inj he).1.symm

/-- The document `d` for `key` has the value `val`, and a proof against the digest. -/
def Proved (H : Bytes → Hash) (q : QLDB) (bs : Bytes → List Sealed) (key val d : Bytes) : Prop :=
  ∃ r, ProofOf H q ledger key val d (tip bs) (Hash.fromBase32 (digestOf H bs)) r

/-- What a read returns for a key: nothing, or a document with a proof. -/
theorem Serves.returns (h : Serves H q cs bs) {key : Bytes} {result : Option Bytes}
    (hreturns : Returns H q key result (lastEntry cs key)) :
    result = none ∧ (held cs).lookup key = none ∨
      ∃ d val, result = some d ∧ (held cs).lookup key = some val ∧ Proved H q bs key val d := by
  rw [lookup_held]
  cases hlast : lastEntry cs key with
  | none =>
    rw [hlast] at hreturns
    exact Or.inl ⟨hreturns, rfl⟩
  | some e =>
    obtain ⟨name, val⟩ := e
    obtain rfl := h.lastEntry_eq hlast
    rw [hlast] at hreturns
    obtain ⟨d, hd, tip', root, r, hproof⟩ := hreturns
    have hdigest := Except.ok.inj (hproof.digest.symm.trans h.digest_eq)
    obtain ⟨rfl, hroot⟩ := DigestInfo.mk.inj hdigest
    refine Or.inr ⟨d, val, hd, rfl, r, ?_⟩
    rw [← hroot, Hash.fromBase32_toBase32]
    exact hproof

/-! ### Reads -/

/-- **The proof of a document in a reply** has its key and value, and passes the check. -/
theorem Proved.addProof {key val d : Bytes} (h : Proved H q bs key val d) :
    ∃ p q', QldbStore.addProof (tip bs) key d q = .ok (p, q') ∧ SameLedgers q q' ∧
      (p.key, p.value) = (key, val) ∧
      (prover p).verify H (Hash.fromBase32 (digestOf H bs)) = .ok true := by
  obtain ⟨r, hproof⟩ := h
  obtain ⟨hdata, haddr, hmeta⟩ := hproof.fields
  have hr : r.data = ⟨key, val⟩ := hdata.trans hproof.data
  refine ⟨proofEntry key r,
    { q with db := (q.db.getChunk (blockKey ledger (Document.ofChunk d).addr.seqNo)).2 }, ?_,
    ⟨rfl, rfl, DB.SameAnswers.getChunk _ _⟩, ?_, ?_⟩
  · rw [QldbStore.addProof, hproof.getProof]
    rfl
  · rw [proofEntry, hr]
  · rw [prover_proofEntry (by rw [hr]) (by rw [haddr]; exact hproof.ledger) haddr hmeta
      (getProof_pos_le hproof.getProof)]
    exact hproof.verify

/-- The values of some keys. -/
def lookups (m : StdMap Bytes) (keys : List Bytes) : List (Bytes × Bytes) :=
  keys.filterMap fun k => (m.lookup k).map (k, ·)

/-- Proofs with the given contents, made while the ledgers stay the same. -/
structure Fills (H : Bytes → Hash) (q : QLDB) (bs : Bytes → List Sealed)
    (answer : List (Bytes × Bytes)) (proofs : List QLDBProof) (q' : QLDB) : Prop where
  same : SameLedgers q q'
  contents : contents proofs = answer
  verify : ∀ p ∈ proofs, (prover p).verify H (Hash.fromBase32 (digestOf H bs)) = .ok true

/-- **The loop of `BatchGet`.** -/
theorem Serves.batchGetLoop (keys : List Bytes) : ∀ {q : QLDB}, Serves H q cs bs →
    ∃ proofs q', QldbStore.batchGetLoop (tip bs) keys q = .ok (proofs, q') ∧
      Fills H q bs (lookups (held cs) keys) proofs q' := by
  induction keys with
  | nil => exact fun {q} h => ⟨[], q, rfl, SameLedgers.refl q, rfl, fun p hp => by cases hp⟩
  | cons key keys ih =>
    intro q h
    obtain ⟨result, q₁, hget, hsame₁, hreturns⟩ := h.toLatest.getCommitted h.bound ledger key
    have h₁ := h.congr hsame₁
    rw [QldbStore.batchGetLoop, hget, ok_bind]
    rcases h₁.returns (hreturns q₁ hsame₁) with ⟨rfl, hnone⟩ | ⟨d, val, rfl, hsome, hproved⟩
    · obtain ⟨proofs, q', hloop, hfills⟩ := ih h₁
      refine ⟨proofs, q', hloop, hsame₁.trans hfills.same, ?_, hfills.verify⟩
      rw [hfills.contents, lookups, lookups, List.filterMap_cons, hnone]
      rfl
    · obtain ⟨p, q₂, hadd, hsame₂, hp, hpverify⟩ := hproved.addProof
      obtain ⟨proofs, q', hloop, hfills⟩ := ih (h₁.congr hsame₂)
      refine ⟨p :: proofs, q', ?_, (hsame₁.trans hsame₂).trans hfills.same, ?_, ?_⟩
      · simp only [hadd, ok_bind, hloop]
        rfl
      · rw [QldbStore.contents, List.map_cons, hp, lookups, List.filterMap_cons, hsome, ← lookups,
          ← hfills.contents]
        rfl
      · exact List.forall_mem_cons.mpr ⟨hpverify, hfills.verify⟩

/-- **The loop of `GetRange`** over documents that have proofs. -/
theorem Serves.addProofs {l : List (Bytes × Bytes)} : ∀ {q : QLDB}, Serves H q cs bs →
    (∀ e ∈ l, ∀ q'', SameLedgers q q'' → ∃ val, Proved H q'' bs e.1 val e.2) →
    ∃ proofs q', QldbStore.addProofs (tip bs) l q = .ok (proofs, q') ∧
      Fills H q bs (l.map fun e => (e.1, (Document.ofChunk e.2).data.val)) proofs q' := by
  induction l with
  | nil => exact fun {q} h _ => ⟨[], q, rfl, SameLedgers.refl q, rfl, fun p hp => by cases hp⟩
  | cons e l ih =>
    intro q h hproved
    obtain ⟨val, hfirst⟩ := hproved e List.mem_cons_self q (SameLedgers.refl q)
    have hval : (Document.ofChunk e.2).data.val = val := by
      obtain ⟨r, hproof⟩ := hfirst
      rw [hproof.data]
    obtain ⟨p, q₁, hadd, hsame₁, hp, hpverify⟩ := hfirst.addProof
    obtain ⟨proofs, q', hloop, hfills⟩ := ih (h.congr hsame₁) fun e' he' q'' hsame =>
      hproved e' (List.mem_cons_of_mem _ he') q'' (hsame₁.trans hsame)
    refine ⟨p :: proofs, q', ?_, hsame₁.trans hfills.same, ?_, ?_⟩
    · rw [QldbStore.addProofs, hadd, ok_bind]
      simp only [hloop, ok_bind]
      rfl
    · rw [QldbStore.contents, List.map_cons, hp, List.map_cons, hval, ← hfills.contents]
      rfl
    · exact List.forall_mem_cons.mpr ⟨hpverify, hfills.verify⟩

/-- **`BatchGet`** answers with the values of the keys. -/
theorem Serves.batchGet (h : Serves H q cs bs) (keys : List Bytes) (reply : QLDBReply) :
    ∃ proofs q', QldbStore.batchGet keys reply q =
        .ok ({ reply with hash := digestOf H bs, qproof := reply.qproof ++ proofs }, q') ∧
      Fills H q bs (lookups (held cs) keys) proofs q' := by
  obtain ⟨proofs, q', hloop, hfills⟩ := Serves.batchGetLoop keys h
  refine ⟨proofs, q', ?_, hfills⟩
  rw [QldbStore.batchGet, h.digest_eq, ok_bind]
  simp only [hloop, ok_bind]
  rfl

/-- The documents that `Range` finds. -/
theorem Serves.range (h : Serves H q cs bs) (start stop : Bytes) :
    ∃ result q', q.range ledger start stop = .ok (result, q') ∧ SameLedgers q q' ∧
      (∀ e ∈ result, ∀ q'', SameLedgers q' q'' → ∃ val, Proved H q'' bs e.1 val e.2) ∧
      result.map (fun e => (e.1, (Document.ofChunk e.2).data.val)) =
        (held cs).filter fun e => Within start stop e.1 := by
  obtain ⟨result, q', hrange, hsame, hordered, hreturns⟩ :=
    h.toLatest.range h.bound ledger start stop
  -- a document in the result is the one of the last entry
  have hfound : ∀ k d, result.lookup k = some d → ∀ q'', SameLedgers q q'' →
      Within start stop k ∧ ∃ val, (held cs).lookup k = some val ∧ Proved H q'' bs k val d := by
    intro k d hd q'' hsame''
    have hret := hreturns q'' hsame'' k
    rw [hd] at hret
    by_cases hin : Within start stop k
    · rw [if_pos hin] at hret
      rcases (h.congr hsame'').returns hret with ⟨hnone, -⟩ | ⟨d', val, hsome, hval, hproved⟩
      · cases hnone
      · obtain rfl := Option.some.inj hsome
        exact ⟨hin, val, hval, hproved⟩
    · rw [if_neg hin] at hret
      cases hret
  refine ⟨result, q', hrange, hsame, fun e he q'' hsame'' => ?_, ?_⟩
  · obtain ⟨-, val, -, hproved⟩ :=
      hfound e.1 e.2 (hordered.mem_iff.mp he) q'' (hsame.trans hsame'')
    exact ⟨val, hproved⟩
  · apply StdMap.Ordered.ext
    · exact List.pairwise_map.mpr hordered
    · exact (ordered_held cs).filter _
    · intro k
      rw [StdMap.lookup_filter,
        StdMap.lookup_map_val fun d => (Document.ofChunk d).data.val]
      cases hd : result.lookup k with
      | some d =>
        obtain ⟨hin, val, hval, r, hproof⟩ := hfound k d hd q (SameLedgers.refl q)
        rw [if_pos hin, hval, Option.map_some, hproof.data]
      | none =>
        by_cases hin : Within start stop k
        · have hret := hreturns q (SameLedgers.refl q) k
          rw [hd, if_pos hin] at hret
          rcases h.returns hret with ⟨-, hnone⟩ | ⟨d, val, hsome, -, -⟩
          · rw [if_pos hin, hnone, Option.map_none]
          · cases hsome
        · rw [if_neg hin, Option.map_none]

/-- **`GetRange`** answers with the entries between the bounds. -/
theorem Serves.getRange (h : Serves H q cs bs) (start stop : Bytes) (reply : QLDBReply) :
    ∃ proofs q', QldbStore.getRange start stop reply q =
        .ok ({ reply with hash := digestOf H bs, qproof := reply.qproof ++ proofs }, q') ∧
      Fills H q bs ((held cs).filter fun e => Within start stop e.1) proofs q' := by
  obtain ⟨result, q₁, hrange, hsame, hproved, hcontents⟩ := h.range start stop
  obtain ⟨proofs, q', hloop, hfills⟩ := (h.congr hsame).addProofs hproved
  refine ⟨proofs, q', ?_, hsame.trans hfills.same, hfills.contents.trans hcontents, hfills.verify⟩
  rw [QldbStore.getRange, h.digest_eq, ok_bind, hrange, ok_bind]
  simp only [hloop, ok_bind]
  rfl

/-! ### Runs -/

/-- An operation of the store: `put` without and with a reply, `BatchGet` and `GetRange`. -/
inductive StoreOp
  | load (c : SetCall)
  | put (c : SetCall)
  | batchGet (keys : List Bytes)
  | getRange (start stop : Bytes)

namespace StoreOp

/-- What the operation writes. -/
def call : StoreOp → Option SetCall
  | load c | put c => some c
  | batchGet _ | getRange _ _ => none

/-- The operation on a map. -/
def apply (m : StdMap Bytes) : StoreOp → StdMap Bytes
  | load c | put c => assignAll m c.entries
  | batchGet _ | getRange _ _ => m

/-- What the operation answers with, for the map after it. -/
def answer (m : StdMap Bytes) : StoreOp → List (Bytes × Bytes)
  | load _ => []
  | put c => lookups m c.keys
  | batchGet keys => lookups m keys
  | getRange start stop => m.filter fun e => Within start stop e.1

end StoreOp

/-- The answers of a map to some operations. -/
def answers : StdMap Bytes → List StoreOp → List (List (Bytes × Bytes))
  | _, [] => []
  | m, op :: ops => op.answer (op.apply m) :: answers (op.apply m) ops

/-- The operation on the store, with a new reply. -/
def act (H : Bytes → Hash) (cfg : BPlusConfig) (q : QLDB) :
    StoreOp → Except Fault (QLDBReply × QLDB)
  | .load c => do
    let (reply, q) ← QldbStore.put H cfg c.keys c.vals c.env none q
    return (reply.getD {}, q)
  | .put c => do
    let (reply, q) ← QldbStore.put H cfg c.keys c.vals c.env (some {}) q
    return (reply.getD {}, q)
  | .batchGet keys => QldbStore.batchGet keys {} q
  | .getRange start stop => QldbStore.getRange start stop {} q

/-- A run of the store: the replies. -/
def actAll (H : Bytes → Hash) (cfg : BPlusConfig) :
    List StoreOp → QLDB → Except Fault (List QLDBReply × QLDB)
  | [], q => .ok ([], q)
  | op :: ops, q => do
    let (reply, q) ← act H cfg q op
    let (replies, q) ← actAll H cfg ops q
    return (reply :: replies, q)

/-- The calls of `Set` in a run. -/
def callsOf (ops : List StoreOp) : List (Bytes × SetCall) :=
  (ops.filterMap StoreOp.call).map fun c => (ledger, c)

/-- The map after a run. -/
def mapOf (ops : List StoreOp) : StdMap Bytes := ops.foldl StoreOp.apply []

/-- The store after a run. -/
def Holds (H : Bytes → Hash) (ops : List StoreOp) (q : QLDB) : Prop :=
  ∃ bs, Serves H q (callsOf ops) bs

/-- The reply has these keys and values, and the check of the callbacks accepts it. -/
structure Answers (H : Bytes → Hash) (reply : QLDBReply) (answer : List (Bytes × Bytes)) : Prop where
  contents : contents reply.qproof = answer
  accepted : Accepted H reply

variable {ops : List StoreOp} {op : StoreOp} {reply : QLDBReply}

theorem callsOf_read (hread : op.call = none) : callsOf (ops ++ [op]) = callsOf ops := by
  rw [callsOf, List.filterMap_append, List.filterMap_cons_none hread]
  exact congrArg _ (List.append_nil _)

theorem callsOf_write {c : SetCall} (hwrite : op.call = some c) :
    callsOf (ops ++ [op]) = callsOf ops ++ [(ledger, c)] := by
  rw [callsOf, List.filterMap_append, List.filterMap_cons_some hwrite, List.map_append]
  rfl

theorem mapOf_concat : mapOf (ops ++ [op]) = op.apply (mapOf ops) := by
  rw [mapOf, List.foldl_append]
  rfl

theorem held_callsOf (ops : List StoreOp) : held (callsOf ops) = mapOf ops := by
  induction ops using List.reverseRecOn with
  | nil => rfl
  | append_singleton ops op ih =>
    rw [mapOf_concat, ← ih]
    cases op with
    | load c | put c =>
      rw [callsOf_write rfl, held_concat]
      rfl
    | batchGet keys | getRange start stop =>
      rw [callsOf_read rfl]
      rfl

theorem length_callsOf (ops : List StoreOp) : (callsOf ops).length ≤ ops.length := by
  rw [callsOf, List.length_map]
  exact List.length_filterMap_le ..

theorem Fills.answers {answer : List (Bytes × Bytes)} {proofs : List QLDBProof}
    (h : Fills H q bs answer proofs q') :
    Answers H { hash := digestOf H bs, qproof := proofs } answer :=
  ⟨h.contents, verifyStatus_of_verify h.verify⟩

/-- `Set` of the store. -/
theorem Serves.set {c : SetCall} {b : Bool} (h : Serves H q cs bs) (hinfi : infi ∉ c.keys)
    (hlen : cs.length < 2 ^ 64) (hset : q.set H cfg ledger c.keys c.vals c.env = .ok (b, q')) :
    ∃ bs', Serves H q' (cs ++ [(ledger, c)]) bs' ∧
      (c.entries ≠ [] → ∃ b, bs' ledger = bs ledger ++ [b]) := by
  have hrun : (do return (← q.set H cfg ledger c.keys c.vals c.env).2) = Except.ok q' := by
    rw [hset]
    rfl
  obtain ⟨bs', h', hadds⟩ := h.toLatest.set (c := (ledger, c)) plain_ledger hinfi hlen.le hrun
  refine ⟨bs', ⟨h', ?_, fun c' hc' => ?_⟩, hadds⟩
  · rw [List.length_append]
    exact hlen
  · rcases List.mem_append.mp hc' with hc' | hc'
    · exact h.here c' hc'
    · rw [List.mem_singleton.mp hc']

/-- A read answers, and the store stays as it is. -/
theorem Holds.read (cfg : BPlusConfig) (h : Holds H ops q) (hread : op.call = none) :
    ∃ reply q', act H cfg q op = .ok (reply, q') ∧ Holds H ops q' ∧
      Answers H reply (op.answer (mapOf ops)) := by
  obtain ⟨bs, hserves⟩ := h
  rw [← held_callsOf]
  cases op with
  | load c => cases hread
  | put c => cases hread
  | batchGet keys =>
    obtain ⟨proofs, q', hget, hfills⟩ := hserves.batchGet keys {}
    exact ⟨_, q', hget, ⟨bs, hserves.congr hfills.same⟩, hfills.answers⟩
  | getRange start stop =>
    obtain ⟨proofs, q', hget, hfills⟩ := hserves.getRange start stop {}
    exact ⟨_, q', hget, ⟨bs, hserves.congr hfills.same⟩, hfills.answers⟩

/-- **An operation** does to the store what it does to the map. -/
theorem Holds.act (h : Holds H ops q) (hlen : ops.length < 2 ^ 64)
    (hinfi : ∀ c, op.call = some c → infi ∉ c.keys) (hact : act H cfg q op = .ok (reply, q')) :
    Holds H (ops ++ [op]) q' ∧ Answers H reply (op.answer (mapOf (ops ++ [op]))) := by
  -- what a write does, before the reply is filled
  have hwrite : ∀ (c : SetCall) (b : Bool) (q₁ : QLDB), op.call = some c →
      q.set H cfg ledger c.keys c.vals c.env = .ok (b, q₁) → Holds H (ops ++ [op]) q₁ := by
    intro c b q₁ hc hset
    obtain ⟨bs, hserves⟩ := h
    obtain ⟨bs', hserves', -⟩ :=
      hserves.set (hinfi c hc) (lt_of_le_of_lt (length_callsOf ops) hlen) hset
    rw [← callsOf_write hc] at hserves'
    exact ⟨bs', hserves'⟩
  have hread : op.call = none →
      Holds H (ops ++ [op]) q' ∧ Answers H reply (op.answer (mapOf (ops ++ [op]))) := by
    intro hnone
    have hmap : mapOf (ops ++ [op]) = mapOf ops := by
      rw [← held_callsOf, callsOf_read hnone, held_callsOf]
    obtain ⟨r, q₁, hact', hholds, hanswers⟩ := h.read cfg hnone
    obtain ⟨rfl, rfl⟩ := Prod.mk.inj (Except.ok.inj (hact.symm.trans hact'))
    rw [Holds, callsOf_read hnone, hmap]
    exact ⟨hholds, hanswers⟩
  cases op with
  | load c =>
    obtain ⟨⟨r, q₁⟩, hput, hact⟩ := bind_eq_ok_iff.mp hact
    obtain ⟨rfl, rfl⟩ := Prod.mk.inj (Except.ok.inj hact)
    obtain ⟨⟨b, q₂⟩, hset, hput⟩ := bind_eq_ok_iff.mp hput
    obtain ⟨rfl, rfl⟩ := Prod.mk.inj (Except.ok.inj hput)
    exact ⟨hwrite c b q₂ rfl hset, rfl, rfl⟩
  | put c =>
    obtain ⟨⟨r, q₁⟩, hput, hact⟩ := bind_eq_ok_iff.mp hact
    obtain ⟨rfl, rfl⟩ := Prod.mk.inj (Except.ok.inj hact)
    obtain ⟨⟨b, q₂⟩, hset, hput⟩ := bind_eq_ok_iff.mp hput
    obtain ⟨⟨r', q₃⟩, hget, hput⟩ := bind_eq_ok_iff.mp hput
    obtain ⟨rfl, rfl⟩ := Prod.mk.inj (Except.ok.inj hput)
    obtain ⟨r'', q₄, hget', hholds, hanswers⟩ :=
      (hwrite c b q₂ rfl hset).read cfg (show (StoreOp.batchGet c.keys).call = none from rfl)
    obtain ⟨rfl, rfl⟩ := Prod.mk.inj (Except.ok.inj (hget.symm.trans hget'))
    exact ⟨hholds, hanswers⟩
  | batchGet keys => exact hread rfl
  | getRange start stop => exact hread rfl

/-- **A run** does to the store what it does to the map. -/
theorem Holds.actAll {ops' : List StoreOp} : ∀ {ops : List StoreOp} {q : QLDB}
    {replies : List QLDBReply}, Holds H ops q → (ops ++ ops').length ≤ 2 ^ 64 →
      (∀ op ∈ ops', ∀ c, op.call = some c → infi ∉ c.keys) →
      actAll H cfg ops' q = .ok (replies, q') →
      Holds H (ops ++ ops') q' ∧ List.Forall₂ (Answers H) replies (answers (mapOf ops) ops') := by
  induction ops' with
  | nil =>
    intro ops q replies h _ _ hrun
    obtain ⟨rfl, rfl⟩ := Prod.mk.inj (Except.ok.inj hrun)
    rw [List.append_nil]
    exact ⟨h, List.Forall₂.nil⟩
  | cons op ops' ih =>
    intro ops q replies h hlen hinfi hrun
    obtain ⟨⟨reply, q₁⟩, hact, hrun⟩ := bind_eq_ok_iff.mp hrun
    obtain ⟨⟨rest, q₂⟩, hrest, hrun⟩ := bind_eq_ok_iff.mp hrun
    obtain ⟨rfl, rfl⟩ := Prod.mk.inj (Except.ok.inj hrun)
    have hlt : ops.length < 2 ^ 64 := by
      rw [List.length_append, List.length_cons] at hlen
      omega
    obtain ⟨h₁, hanswers⟩ := h.act hlt (hinfi op List.mem_cons_self) hact
    rw [List.append_cons] at hlen ⊢
    obtain ⟨h₂, hrest'⟩ := ih h₁ hlen (fun op' hop' => hinfi op' (List.mem_cons_of_mem _ hop')) hrest
    rw [mapOf_concat] at hanswers hrest'
    exact ⟨h₂, List.Forall₂.cons hanswers hrest'⟩

/-- A store with entries has a block. -/
theorem Serves.ne_nil {key val : Bytes} (h : Serves H q cs bs)
    (hlookup : (held cs).lookup key = some val) : bs ledger ≠ [] := by
  rw [lookup_held] at hlookup
  obtain ⟨es, -, hes⟩ := h.indexed
  rcases hes key with ⟨hnone, -⟩ | ⟨name, val', d, -, hsome, -, i, j, b, hb, -⟩
  · rw [hnone] at hlookup
    cases hlookup
  · obtain rfl := h.lastEntry_eq hsome
    rintro hnil
    rw [hnil] at hb
    cases hb

/-- The write set of a transaction as a call. -/
def callOf (writeSet : List (Bytes × Bytes)) (env : Env) : SetCall :=
  ⟨writeSet.map (·.1), writeSet.map (·.2), env⟩

theorem entries_callOf (writeSet : List (Bytes × Bytes)) (env : Env) :
    (callOf writeSet env).entries = writeSet := by
  rw [SetCall.entries, callOf, if_pos (by rw [List.length_map, List.length_map])]
  exact (List.zip_of_prod rfl rfl).symm

theorem Serves.commitReads (h : Serves H q cs bs) (reads : List Bytes) :
    ∃ proofs q', QldbStore.commitReads reads {} q =
        .ok ({ hash := if reads = [] then [] else digestOf H bs, qproof := proofs }, q') ∧
      Fills H q bs (lookups (held cs) reads) proofs q' := by
  by_cases hreads : reads = []
  · subst hreads
    exact ⟨[], q, rfl, SameLedgers.refl q, rfl, fun p hp => by cases hp⟩
  · obtain ⟨proofs, q', hget, hfills⟩ := h.batchGet reads {}
    refine ⟨proofs, q', ?_, hfills⟩
    rw [QldbStore.commitReads, if_pos (List.length_pos_iff.mpr hreads), hget, if_neg hreads]
    rfl

/-- The writes of a commit: the proofs for what was read stay, those for what was written are added,
and the digest is the new one. -/
theorem Serves.commitWrites {writeSet : List (Bytes × Bytes)} {env : Env} {reply' : QLDBReply}
    (h : Serves H q cs bs) (hlen : cs.length < 2 ^ 64) (hne : writeSet ≠ [])
    (hinfi : infi ∉ writeSet.map (·.1))
    (hcommit : QldbStore.commitWrites H cfg writeSet env reply q = .ok (reply', q')) :
    ∃ bs' b proofs q₁, Serves H q₁ (cs ++ [(ledger, callOf writeSet env)]) bs' ∧
      bs' ledger = bs ledger ++ [b] ∧
      reply' = { reply with hash := digestOf H bs', qproof := reply.qproof ++ proofs } ∧
      Fills H q₁ bs' (lookups (assignAll (held cs) writeSet) (writeSet.map (·.1))) proofs q' := by
  rw [QldbStore.commitWrites, if_pos (List.length_pos_iff.mpr hne)] at hcommit
  obtain ⟨⟨r, q₁⟩, hput, hcommit⟩ := bind_eq_ok_iff.mp hcommit
  obtain ⟨rfl, rfl⟩ := Prod.mk.inj (Except.ok.inj hcommit)
  obtain ⟨⟨b, q₂⟩, hset, hput⟩ := bind_eq_ok_iff.mp hput
  obtain ⟨⟨r', q₃⟩, hget, hput⟩ := bind_eq_ok_iff.mp hput
  obtain ⟨rfl, rfl⟩ := Prod.mk.inj (Except.ok.inj hput)
  obtain ⟨bs', h', hadds⟩ := h.set (c := callOf writeSet env) hinfi hlen hset
  have hentries := entries_callOf writeSet env
  obtain ⟨b', hb'⟩ := hadds (by rw [hentries]; exact hne)
  obtain ⟨proofs, q₄, hget', hfills⟩ := h'.batchGet (writeSet.map (·.1)) reply
  obtain ⟨rfl, rfl⟩ := Prod.mk.inj (Except.ok.inj (hget.symm.trans hget'))
  rw [held_concat, hentries] at hfills
  exact ⟨bs', b', proofs, q₂, h', hb', rfl, hfills⟩

end LedgerDatabase.Distributed.QldbStore
