import LedgerDatabase.Qldb.Equiv.BTree.Refines
import LedgerDatabase.Qldb.Equiv.Proofs

/-!
# The last documents

All ledgers of a store share one index.  For every key it has the document of the last entry that any
call wrote for it, on whatever ledger (`Latest`), so that is what `GetCommitted` and `Range` return
for every name of a ledger.  The document names its ledger, block and position, and `getProof` finds
it there.
-/

namespace LedgerDatabase.Qldb.QLDB

open DB (SameAnswers AgreeOff)
open QLBTree (IsName Represents NoInfi assignAll lastValue lookup_assignAll_lastValue)

variable {H : Bytes → Hash} {name key : Bytes} {cfg : BPlusConfig} {q q' : QLDB}
  {cs : List (Bytes × SetCall)}

/-! ### Entries -/

/-- The entries of a run: a key, with the ledger and the value. -/
def runEntries (cs : List (Bytes × SetCall)) : List (Bytes × Bytes × Bytes) :=
  cs.flatMap fun c => c.2.entries.map fun e => (e.1, c.1, e.2)

/-- The last entry for a key: its ledger and its value. -/
def lastEntry (cs : List (Bytes × SetCall)) (key : Bytes) : Option (Bytes × Bytes) :=
  ((runEntries cs).reverse.find? fun e => e.1 == key).map Prod.snd

theorem callsOn_append (name : Bytes) (cs cs' : List (Bytes × SetCall)) :
    callsOn name (cs ++ cs') = callsOn name cs ++ callsOn name cs' := by
  rw [callsOn, callsOn, callsOn, List.filter_append, List.map_append]

/-- A call adds its entries. -/
theorem lastEntry_concat (cs : List (Bytes × SetCall)) (c : Bytes × SetCall) (key : Bytes) :
    lastEntry (cs ++ [c]) key =
      ((c.2.entries.reverse.find? fun e => e.1 == key).map fun e => (c.1, e.2)).or
        (lastEntry cs key) := by
  have hmap : (fun e : Bytes × Bytes × Bytes => e.1 == key) ∘
      (fun e : Bytes × Bytes => (e.1, c.1, e.2)) = fun e => e.1 == key := rfl
  rw [lastEntry, runEntries, List.flatMap_append, List.flatMap_singleton, List.reverse_append,
    List.find?_append, ← List.map_reverse, List.find?_map, hmap, Option.map_or, Option.map_map]
  rfl

/-- A batch that pairs the keys of the entries with documents has for each key the document at the
position of its last entry. -/
theorem lastValue_zip {entries : List (Bytes × Bytes)} {documents : List Bytes}
    (hlen : documents.length = entries.length) (key : Bytes) :
    (entries.reverse.find? fun e => e.1 == key) = none ∧
        lastValue ((entries.map Prod.fst).zip documents) key = none ∨
      ∃ (j : ℕ) (val d : Bytes), entries[j]? = some (key, val) ∧ documents[j]? = some d ∧
        (entries.reverse.find? fun e => e.1 == key) = some (key, val) ∧
        lastValue ((entries.map Prod.fst).zip documents) key = some d := by
  -- both are searches in the list of the triples
  have hentries : entries = (entries.zip documents).map Prod.fst := by
    rw [List.map_fst_zip hlen.ge]
  have hbatch : (entries.map Prod.fst).zip documents =
      (entries.zip documents).map fun p => (p.1.1, p.2) := by
    rw [List.zip_map_left]
    rfl
  have hsearch : lastValue ((entries.map Prod.fst).zip documents) key =
      ((entries.zip documents).reverse.find? fun p => p.1.1 == key).map Prod.snd := by
    rw [hbatch, lastValue, ← List.map_reverse, lookup_map]
  have hfind : (entries.reverse.find? fun e => e.1 == key) =
      ((entries.zip documents).reverse.find? fun p => p.1.1 == key).map Prod.fst := by
    conv_lhs => rw [hentries]
    rw [← List.map_reverse, List.find?_map]
    rfl
  rw [hsearch, hfind]
  cases h : (entries.zip documents).reverse.find? fun p => p.1.1 == key with
  | none => exact Or.inl ⟨rfl, rfl⟩
  | some p =>
    obtain ⟨⟨key', val⟩, d⟩ := p
    obtain rfl : key' = key := beq_iff_eq.mp
      (List.find?_some (p := fun p : (Bytes × Bytes) × Bytes => p.1.1 == key) h)
    have hmem := List.mem_reverse.mp (List.mem_of_find?_eq_some h)
    obtain ⟨j, hj⟩ := List.mem_iff_getElem?.mp hmem
    obtain ⟨he, hd⟩ := List.getElem?_zip_eq_some.mp hj
    exact Or.inr ⟨j, val, d, he, hd, rfl, rfl⟩

/-! ### The index -/

/-- The document `d` is the one of an entry `(key, val)` in a block of the ledger `name`. -/
def IsEntry (name : Bytes) (bs : List Sealed) (key val d : Bytes) : Prop :=
  ∃ (i j : ℕ) (b : Sealed), bs[i]? = some b ∧ b.documents[j]? = some d ∧
    b.call.entries[j]? = some (key, val)

/-- The ledgers of a store after the calls `cs`, and the index, which has the document of the last
entry of every key. -/
structure Latest (H : Bytes → Hash) (q : QLDB) (cs : List (Bytes × SetCall))
    (bs : Bytes → List Sealed) : Prop where
  prefixes : Prefixes q
  built : ∀ name, Plain name → Built H name q (bs name)
  calls : ∀ name, Plain name → (bs name).map Sealed.call = callsOn name cs
  indexed : ∃ es, Represents q.indexed q.db es ∧ ∀ k,
    lastEntry cs k = none ∧ es.lookup k = none ∨
      ∃ name val d, Plain name ∧ lastEntry cs k = some (name, val) ∧ es.lookup k = some d ∧
        IsEntry name (bs name) k val d

variable {bs : Bytes → List Sealed}

theorem IsEntry.append {name : Bytes} {l : List Sealed} {key val d : Bytes}
    (h : IsEntry name l key val d) (l' : List Sealed) : IsEntry name (l ++ l') key val d := by
  obtain ⟨i, j, b, hb, hd, hentry⟩ := h
  have hi := (List.getElem?_eq_some_iff.mp hb).1
  exact ⟨i, j, b, by rwa [List.getElem?_append_left hi], hd, hentry⟩

/-- What a call does to the index. -/
theorem represents_addBlock {es : StdMap Bytes} {c : SetCall} (hq : Prefixes q) (hname : Plain name)
    (hrep : Represents q.indexed q.db es) (hinfi : NoInfi c.entries)
    (hadd : addBlock H cfg q name c.entries c.env = .ok q')
    (s : Call H cfg q name c.entries c.env) :
    Represents q'.indexed q'.db
      (assignAll es ((c.entries.map Prod.fst).zip s.documents)) := by
  obtain ⟨s', hagree, hindexed, -, -, -⟩ := addBlock_agree hadd
  obtain rfl := s.eq s'
  obtain ⟨hsame, hq₁, hq₁'⟩ := sameAnswers_createDocuments s.created_eq
  obtain ⟨b, hset⟩ := s.indexed_eq
  obtain ⟨b', hset'⟩ := s.history_eq
  rw [hq₁] at hset
  rw [hq₁'] at hset'
  have hlen : s.created.length = c.entries.length := (createDocuments_spec s.created_eq).1
  have hinfi' : NoInfi ((c.entries.map Prod.fst).zip s.documents) := by
    rw [NoInfi, List.map_fst_zip]
    · exact hinfi
    · rw [List.length_map, s.length_documents]
  obtain ⟨-, hpre, hrep', -⟩ := ((hrep.sameAnswers hsame).set hinfi').of_ok hset
  obtain ⟨-, hagree'⟩ := QLBTree.agreeOff_set hset'
  rw [hq.history] at hagree'
  rw [hindexed]
  apply hrep'.congr
  intro y hy
  rw [hpre, hq.indexed] at hy
  have hnot : ¬ LedgerName name y := fun hy' => (hname.apart y hy').1 hy
  rw [hagree.chunkAt y hnot]
  exact hagree'.chunkAt y (not_isName_committed_and_history hy)

/-- The index has the documents of the last entries, also after a call. -/
theorem Latest.indexed_addBlock {c : SetCall} (h : Latest H q cs bs) (hname : Plain name)
    (hinfi : NoInfi c.entries) (hadd : addBlock H cfg q name c.entries c.env = .ok q')
    (s : Call H cfg q name c.entries c.env) :
    ∃ es, Represents q'.indexed q'.db es ∧ ∀ k,
      lastEntry (cs ++ [(name, c)]) k = none ∧ es.lookup k = none ∨
        ∃ name' val d, Plain name' ∧ lastEntry (cs ++ [(name, c)]) k = some (name', val) ∧
          es.lookup k = some d ∧
          IsEntry name' (Function.update bs name (bs name ++ [⟨c, s.documents, s.prevHash⟩]) name')
            k val d := by
  obtain ⟨es, hrep, hes⟩ := h.indexed
  refine ⟨_, represents_addBlock h.prefixes hname hrep hinfi hadd s, fun k => ?_⟩
  rw [lastEntry_concat, lookup_assignAll_lastValue]
  rcases lastValue_zip s.length_documents k with ⟨hfind, hlast⟩ | ⟨j, val, d, he, hd, hfind, hlast⟩
  · -- the call does not write the key
    rw [hfind, hlast, Option.map_none, Option.none_or, Option.none_or]
    rcases hes k with hnone | ⟨name', val, d, hplain, hsome, hlook, hentry⟩
    · exact Or.inl hnone
    · refine Or.inr ⟨name', val, d, hplain, hsome, hlook, ?_⟩
      by_cases heq : name' = name
      · rw [heq, Function.update_self]
        rw [heq] at hentry
        exact hentry.append _
      · rwa [Function.update_of_ne heq]
  · rw [hfind, hlast, Option.map_some, Option.some_or, Option.some_or]
    refine Or.inr ⟨name, val, d, hname, rfl, rfl, (bs name).length, j,
      ⟨c, s.documents, s.prevHash⟩, ?_, hd, he⟩
    rw [Function.update_self]
    exact List.getElem?_concat_length

/-- **A call** on any ledger, which adds a block there if it writes something. -/
theorem Latest.set {c : Bytes × SetCall} (h : Latest H q cs bs) (hname : Plain c.1)
    (hinfi : infi ∉ c.2.keys) (hlen : cs.length ≤ 2 ^ 64)
    (hrun : (do return (← q.set H cfg c.1 c.2.keys c.2.vals c.2.env).2) = Except.ok q') :
    ∃ bs', Latest H q' (cs ++ [c]) bs' ∧
      (c.2.entries ≠ [] → ∃ b, bs' c.1 = bs c.1 ++ [b]) := by
  obtain ⟨name, c⟩ := c
  have hcall := SetCall.run_eq hrun
  by_cases hempty : c.entries = []
  · rw [if_pos hempty] at hcall
    refine ⟨bs, ?_, fun hne => absurd hempty hne⟩
    rw [hcall]
    refine ⟨h.prefixes, h.built, fun name' hplain => ?_, ?_⟩
    · rw [callsOn_append, callsOn_cons, if_neg fun hon => hon.2 hempty, h.calls name' hplain]
      exact (List.append_nil _).symm
    · obtain ⟨es, hrep, hes⟩ := h.indexed
      refine ⟨es, hrep, fun k => ?_⟩
      rw [lastEntry_concat, show (name, c).2.entries = [] from hempty]
      exact hes k
  · rw [if_neg hempty] at hcall
    obtain ⟨s, -⟩ := addBlock_inv hcall
    have hinfi' : NoInfi c.entries := by
      rw [NoInfi, c.map_fst_entries.resolve_right hempty]
      exact hinfi
    have hcount : (bs name).length ≤ 2 ^ 64 := by
      rw [← List.length_map, h.calls name hname, callsOn, List.length_map]
      exact le_trans (List.length_filter_le ..) hlen
    refine ⟨_, ⟨h.prefixes.addBlock hcall, fun name' hplain => ?_, fun name' hplain => ?_,
      h.indexed_addBlock hname hinfi' hcall s⟩, fun _ => ⟨_, Function.update_self ..⟩⟩
    · by_cases heq : name' = name
      · rw [heq, Function.update_self]
        exact (h.built name hname).addBlock h.prefixes hname hcount hempty hcall s
      · rw [Function.update_of_ne heq]
        exact (h.built name' hplain).other h.prefixes hplain hname heq hcall
    · rw [callsOn_append, callsOn_cons]
      by_cases heq : name' = name
      · rw [heq, Function.update_self, List.map_append, h.calls name hname, if_pos ⟨rfl, hempty⟩]
        rfl
      · rw [Function.update_of_ne heq, h.calls name' hplain, if_neg fun hon => heq hon.1.symm]
        exact (List.append_nil _).symm

/-- **A run on any ledgers.** -/
theorem Latest.callAll {cs' : List (Bytes × SetCall)} : ∀ {q : QLDB} {cs : List (Bytes × SetCall)}
    {bs : Bytes → List Sealed}, Latest H q cs bs → (∀ c ∈ cs', Plain c.1 ∧ infi ∉ c.2.keys) →
      (cs ++ cs').length ≤ 2 ^ 64 → QLDB.callAll H cfg q cs' = .ok q' →
      ∃ bs', Latest H q' (cs ++ cs') bs' := by
  induction cs' with
  | nil =>
    intro q cs bs h _ _ hrun
    obtain rfl := Except.ok.inj hrun
    rw [List.append_nil]
    exact ⟨bs, h⟩
  | cons c cs' ih =>
    intro q cs bs h hcalls hlen hrun
    rw [QLDB.callAll, List.foldlM_cons] at hrun
    obtain ⟨q₁, hstep, hrest⟩ := bind_eq_ok_iff.mp hrun
    obtain ⟨hname, hinfi⟩ := hcalls c List.mem_cons_self
    have hlen' : cs.length ≤ 2 ^ 64 := by
      rw [List.length_append] at hlen
      omega
    obtain ⟨bs₁, h₁, -⟩ := h.set hname hinfi hlen' hstep
    rw [List.append_cons] at hlen ⊢
    exact ih h₁ (fun c hc => hcalls c (List.mem_cons_of_mem _ hc)) hlen hrest

/-! ### Reading -/

/-- A store in which something was read: the same ledgers. -/
structure SameLedgers (q q' : QLDB) : Prop where
  indexed : q'.indexed = q.indexed
  history : q'.history = q.history
  db : q.db.SameAnswers q'.db

theorem SameLedgers.refl (q : QLDB) : SameLedgers q q := ⟨rfl, rfl, SameAnswers.refl q.db⟩

theorem SameLedgers.trans {q'' : QLDB} (h : SameLedgers q q') (h' : SameLedgers q' q'') :
    SameLedgers q q'' :=
  ⟨h'.indexed.trans h.indexed, h'.history.trans h.history, h.db.trans h'.db⟩

theorem Latest.congr (h : Latest H q cs bs) (hsame : SameLedgers q q') : Latest H q' cs bs := by
  refine ⟨⟨?_, ?_⟩, fun name hname => ?_, h.calls, ?_⟩
  · rw [hsame.indexed]
    exact h.prefixes.indexed
  · rw [hsame.history]
    exact h.prefixes.history
  · apply (h.built name hname).congr
    · exact fun r => congrFun hsame.db.getString _
    · exact fun i => congrFun hsame.db.chunkAt _
  · obtain ⟨es, hrep, hes⟩ := h.indexed
    rw [hsame.indexed]
    exact ⟨es, hrep.sameAnswers hsame.db, hes⟩

/-- The proof for a document from the index. -/
structure ProofOf (H : Bytes → Hash) (q : QLDB) (name key val d : Bytes) (tip : ℕ) (root : Hash)
    (r : QLProofResult) : Prop where
  digest : q.digest name = .ok ⟨tip, root.toBase32⟩
  data : (Document.ofChunk d).data = ⟨key, val⟩
  ledger : (Document.ofChunk d).addr.ledgerName = name
  getProof : q.getProof name tip (Document.ofChunk d).addr.seqNo (Document.ofChunk d).metadata.docSeq =
    .ok (r, { q with db := (q.db.getChunk (blockKey name (Document.ofChunk d).addr.seqNo)).2 })
  verify : r.verify H root = .ok true
  fields : r.data = (Document.ofChunk d).data ∧ r.addr = (Document.ofChunk d).addr ∧
    r.metadata = (Document.ofChunk d).metadata

/-- **A document from the index has a proof.** -/
theorem Latest.proofOf {val d : Bytes} (h : Latest H q cs bs) (hname : Plain name)
    (hlen : cs.length ≤ 2 ^ 64) (hentry : IsEntry name (bs name) key val d) :
    ∃ r, ProofOf H q name key val d ((bs name).length - 1)
      (Ledgerdb.MerkleTree.merkleRoot H (hashes H name (bs name))) r := by
  obtain ⟨i, j, b, hb, hd, he⟩ := hentry
  have hbuilt := h.built name hname
  have hi : i < (bs name).length := (List.getElem?_eq_some_iff.mp hb).1
  have hcount : (bs name).length ≤ 2 ^ 64 := by
    rw [← List.length_map, h.calls name hname, callsOn, List.length_map]
    exact le_trans (List.length_filter_le ..) hlen
  obtain ⟨key', val', version, he', hencode⟩ := (hbuilt.continues i b hb).document j d hd
  obtain ⟨rfl, rfl⟩ := Prod.mk.inj (Option.some.inj (he.symm.trans he'))
  rw [List.length_take_of_le hi.le] at hencode
  have hdoc := hbuilt.ofChunk_document hcount hb hd hencode []
  rw [List.append_nil] at hdoc
  obtain ⟨r, hget, hverify, hdata, haddr, hmeta⟩ := hbuilt.getProof_spec hcount hb hd hencode
  refine ⟨r, ?_, by rw [hdoc], by rw [hdoc], ?_, hverify, ?_⟩
  · rw [hbuilt.digest_eq, if_neg (List.ne_nil_of_length_pos (by omega))]
  · rw [hdoc]
    exact hget
  · rw [hdoc]
    exact ⟨hdata, haddr, hmeta⟩

/-- What a read returns for a key with the given last entry: nothing, or the document, which has the
value and can be proved against the digest of its ledger. -/
def Returns (H : Bytes → Hash) (q : QLDB) (key : Bytes) (result : Option Bytes) :
    Option (Bytes × Bytes) → Prop
  | none => result = none
  | some (name, val) => ∃ d, result = some d ∧ ∃ tip root r, ProofOf H q name key val d tip root r

/-- A document of the last entry, or none, is what a read returns. -/
theorem Latest.returns {result : Option Bytes} (h : Latest H q cs bs) (hlen : cs.length ≤ 2 ^ 64)
    (hresult : lastEntry cs key = none ∧ result = none ∨
      ∃ name val d, Plain name ∧ lastEntry cs key = some (name, val) ∧ result = some d ∧
        IsEntry name (bs name) key val d) : Returns H q key result (lastEntry cs key) := by
  rcases hresult with ⟨hnone, rfl⟩ | ⟨name, val, d, hplain, hsome, rfl, hentry⟩
  · rw [hnone]
    rfl
  · rw [hsome]
    exact ⟨d, rfl, _, _, h.proofOf hplain hlen hentry⟩

/-- **`GetCommitted`** returns the document of the last entry for the key, for every name. -/
theorem Latest.getCommitted (h : Latest H q cs bs) (hlen : cs.length ≤ 2 ^ 64) (name key : Bytes) :
    ∃ result q', q.getCommitted name key = .ok (result, q') ∧ SameLedgers q q' ∧
      ∀ q'', SameLedgers q q'' → Returns H q'' key result (lastEntry cs key) := by
  obtain ⟨es, hrep, hes⟩ := h.indexed
  obtain ⟨db', hget, hsame⟩ := hrep.get key
  refine ⟨es.lookup key, { q with db := db' }, ?_, ⟨rfl, rfl, hsame⟩, fun q'' hsame' => ?_⟩
  · rw [QLDB.getCommitted, hget]
    rfl
  · exact (h.congr hsame').returns hlen (hes key)

/-- **`Range`** returns the documents of the last entries for the keys between the bounds, for every
name. -/
theorem Latest.range (h : Latest H q cs bs) (hlen : cs.length ≤ 2 ^ 64) (name start stop : Bytes) :
    ∃ result q', q.range name start stop = .ok (result, q') ∧ SameLedgers q q' ∧ result.Ordered ∧
      ∀ q'', SameLedgers q q'' → ∀ k, Returns H q'' k (result.lookup k)
        (if QLBTree.Within start stop k then lastEntry cs k else none) := by
  obtain ⟨es, hrep, hes⟩ := h.indexed
  obtain ⟨result, db', hrange, hsame, hordered, hlookup⟩ := hrep.range start stop
  refine ⟨result, { q with db := db' }, ?_, ⟨rfl, rfl, hsame⟩, hordered, fun q'' hsame' k => ?_⟩
  · rw [QLDB.range, hrange]
    rfl
  · rw [hlookup]
    split_ifs
    · exact (h.congr hsame').returns hlen (hes k)
    · rfl

end LedgerDatabase.Qldb.QLDB
