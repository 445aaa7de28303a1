import LedgerDatabase.Qldb.Equiv.BTree.Set
import LedgerDatabase.Qldb.Equiv.Run

/-!
# The documents of a key

`indexed` has the last document of each key and `history` all of them by their versions (`Recorded`).
Each document carries its version, so `Set` finds the version of the next one by reading back the last,
and every call keeps the two indexes in step (`Recorded.addBlock`).  The history has the separator
behind the key, and the number behind it has none, so keys with separators do not get mixed up
(`historyKey_inj`).

`GetHistory` starts with the last document whatever the count is, and then takes as many older ones as
were asked for.  So it returns one too many, unless there are no more (`getHistory_iff`).
-/

namespace LedgerDatabase.Qldb

open DB (SameAnswers AgreeOff WritesIn)
open QLBTree (IsName Represents NoInfi assignAll)
open Chunk

/-! ### Batches with distinct keys -/

namespace QLBTree

variable {es : StdMap Bytes} {batch : List (Bytes × Bytes)}

/-- What is found after a batch. -/
theorem lookup_assignAll (hnodup : (batch.map Prod.fst).Nodup) (key : Bytes) :
    (assignAll es batch).lookup key = (batch.lookup key).or (es.lookup key) := by
  induction batch generalizing es with
  | nil => rfl
  | cons e batch ih =>
    obtain ⟨hnot, hnodup⟩ := List.nodup_cons.mp hnodup
    rw [assignAll_cons, ih hnodup, StdMap.lookup_assign, StdMap.lookup_cons_ite]
    by_cases heq : key = e.1
    · have hnone : batch.lookup key = none := by
        apply StdMap.lookup_eq_none
        rintro e' he' rfl
        exact hnot (heq ▸ List.mem_map_of_mem he')
      rw [if_pos heq, if_pos heq, hnone]
      rfl
    · rw [if_neg heq, if_neg heq]

end QLBTree

theorem lookup_map {α : Type} (l : List α) (f g : α → Bytes) (key : Bytes) :
    (l.map fun a => (f a, g a)).lookup key = (l.find? fun a => f a == key).map g := by
  induction l with
  | nil => rfl
  | cons a l ih =>
    rw [List.map_cons, StdMap.lookup_cons_ite, List.find?_cons]
    by_cases heq : key = f a
    · rw [if_pos heq, heq, beq_self_eq_true]
      rfl
    · rw [if_neg heq, beq_eq_false_iff_ne.mpr (Ne.symm heq)]
      exact ih

namespace QLDB

variable {H : Bytes → Hash} {cfg : BPlusConfig} {q q' : QLDB} {name key : Bytes}

/-! ### Names -/

/-- The key of a document in the history determines its key and its version. -/
theorem historyKey_inj {key' : Bytes} {v v' : ℕ} :
    historyKey key v = historyKey key' v' ↔ key = key' ∧ v = v' := by
  constructor
  · intro h
    -- from the back, both are digits, a bar, and the key
    have hrev : ∀ (k : Bytes) (n : ℕ), (historyKey k n).reverse =
        (toDecimal n).reverse ++ 124 :: k.reverse := by
      intro k n
      rw [historyKey, List.reverse_append, List.reverse_append]
      rfl
    have htake : ∀ (k : Bytes) (n : ℕ), (historyKey k n).reverse.takeWhile isDigit =
        (toDecimal n).reverse := by
      intro k n
      rw [hrev, List.takeWhile_append_of_pos fun b hb =>
        isDigit_of_mem_toDecimal (List.mem_reverse.mp hb)]
      exact List.append_nil _
    have hv : (toDecimal v).reverse = (toDecimal v').reverse := by
      rw [← htake key v, h, htake]
    have hk := congrArg List.reverse h
    rw [hrev, hrev, hv] at hk
    exact ⟨List.reverse_injective (List.cons.inj (List.append_cancel_left hk)).2,
      toDecimal_inj.mp (List.reverse_injective hv)⟩
  · rintro ⟨rfl, rfl⟩
    rfl

theorem historyKey_ne_infi (key : Bytes) (v : ℕ) : historyKey key v ≠ infi := by
  intro h
  have hbar : (124 : UInt8) ∈ historyKey key v := by
    simp [historyKey, show str "|" = [124] from rfl]
  rw [h] at hbar
  exact absurd hbar (by decide)

/-- The names under which the blocks, the proofs and the digest of a ledger stand. -/
inductive LedgerName (name : Bytes) : Bytes → Prop
  | tip : LedgerName name name
  | block (seqno : ℕ) : LedgerName name (blockKey name seqno)
  | digest : LedgerName name (digestKey name)
  | digestNode (level i : ℕ) : LedgerName name (digestNodeKey name level i)
  | blockNode (seqno level i : ℕ) : LedgerName name (blockNodeKey name seqno level i)

/-- No record of the ledger has the name of a node of an index. -/
def Apart (name : Bytes) : Prop :=
  ∀ y, LedgerName name y → ¬ IsName (str "COMMITTED_") y ∧ ¬ IsName (str "HISTORY_") y

theorem head?_isName {pre y : Bytes} (h : IsName pre y) {b : UInt8} (hb : pre.head? = some b) :
    y.head? = some b := by
  rcases h with rfl | ⟨n, x, rfl⟩
  · rw [rootId, List.head?_append, hb]
    rfl
  · rw [nodeId, List.head?_append, List.head?_append, List.head?_append, hb]
    rfl

theorem not_isName_committed_and_history {y : Bytes} (h : IsName (str "COMMITTED_") y) :
    ¬ IsName (str "HISTORY_") y := by
  intro h'
  have hb := (head?_isName h (b := 67) rfl).symm.trans (head?_isName h' (b := 72) rfl)
  exact absurd hb (by decide)

/-- A name that starts with another letter than those of the indexes. -/
theorem apart_of_head? (hhead : ∀ b ∈ name.head?, b ≠ 67 ∧ b ≠ 72) : Apart name := by
  have hname : ∀ y, LedgerName name y → ∀ b ∈ y.head?, b ≠ 67 ∧ b ≠ 72 := by
    intro y hy b hb
    cases hy with
    | tip => exact hhead b hb
    | block seqno =>
      cases name with
      | nil =>
        obtain rfl : 124 = b := Option.some.inj hb
        decide
      | cons a name => exact hhead b hb
    | digest =>
      obtain rfl : 100 = b := Option.some.inj hb
      decide
    | digestNode level i =>
      obtain rfl : 112 = b := Option.some.inj hb
      decide
    | blockNode seqno level i =>
      obtain rfl : 112 = b := Option.some.inj hb
      decide
  intro y hy
  constructor
  · intro h
    exact (hname y hy 67 (head?_isName h rfl)).1 rfl
  · intro h
    exact (hname y hy 72 (head?_isName h rfl)).2 rfl

/-! ### What a call writes under the names of the ledger -/

theorem agreeOff_putStrings {N : Bytes → Prop} (puts : List (Bytes × Bytes)) (db : DB)
    (h : ∀ w ∈ puts, N w.1) : AgreeOff N db (db.putStrings puts) := by
  have hnot : ∀ y, ¬ N y → y ∉ puts.map Prod.fst := by
    intro y hy hmem
    obtain ⟨w, hw, rfl⟩ := List.mem_map.mp hmem
    exact hy (h w hw)
  exact ⟨fun y hy => DB.chunkAt_putStrings_of_not_mem puts db (hnot y hy),
    fun y hy => DB.getString_putStrings_of_not_mem puts db (hnot y hy)⟩

theorem agreeOff_digestLoop {prevBlockHash : Hash} : ∀ {fuel level lastSeqno : ℕ}
    {currHash : Hash} {db : DB} {r : Hash × DB},
    digestLoop H prevBlockHash name fuel level lastSeqno currHash db = .ok r →
      AgreeOff (LedgerName name) db r.2 := by
  intro fuel
  induction fuel with
  | zero =>
    intro level lastSeqno currHash db r h
    cases h
  | succ fuel ih =>
    intro level lastSeqno currHash db r h
    rw [digestLoop] at h
    by_cases hpos : 0 < lastSeqno
    · rw [if_pos hpos] at h
      exact (AgreeOff.putString db _ (LedgerName.digestNode _ _)).trans (ih h)
    · rw [if_neg hpos] at h
      obtain rfl := Except.ok.inj h
      exact AgreeOff.refl db

theorem agreeOff_calculateDigest {blockHash prevBlockHash : Hash} {seqno : ℕ} {db db' : DB}
    (h : calculateDigest H blockHash prevBlockHash name seqno db = .ok db') :
    AgreeOff (LedgerName name) db db' := by
  obtain ⟨⟨currHash, db₁⟩, hloop, h⟩ := bind_eq_ok_iff.mp h
  obtain rfl := Except.ok.inj h
  exact (agreeOff_digestLoop hloop).trans (AgreeOff.putString db₁ _ LedgerName.digest)

/-- **A call of `Set`**: what it does besides creating the documents and writing the indexes. -/
theorem addBlock_agree {entries : List (Bytes × Bytes)} {env : Env}
    (h : addBlock H cfg q name entries env = .ok q') :
    ∃ c : Call H cfg q name entries env, AgreeOff (LedgerName name) c.db₂ q'.db ∧
      q'.indexed = c.indexed ∧ q'.history = c.history ∧
      q'.db.getString name = some (tipRecord c.seqno c.blockHash) ∧ name.length < 2 ^ 32 := by
  obtain ⟨c, db₄, block, hdigest, hblock, rfl⟩ := addBlock_inv h
  refine ⟨c, ?_, rfl, rfl, ?_, ?_⟩
  · have htree : AgreeOff (LedgerName name) c.db₂ c.db₃ := by
      apply agreeOff_putStrings
      intro w hw
      obtain ⟨l, -, -, i, s, -, rfl⟩ := mem_treePuts.mp hw
      exact LedgerName.blockNode _ _ _
    apply (htree.trans (agreeOff_calculateDigest hdigest)).trans
    apply (AgreeOff.putChunk db₄ block (LedgerName.block c.seqno)).trans
    exact AgreeOff.putString _ _ LedgerName.tip
  · rw [DB.getString_putString, if_pos rfl]
    rfl
  · have hsize := ((QLBlock.encode_eq_ok_iff fun d hd => (c.isDocument d hd).whole).mp hblock).1
    rw [List.length_append, QLBlock.length_headOf] at hsize
    show (BlockAddress.mk name c.seqno).ledgerName.length < 2 ^ 32
    omega

/-! ### The documents that a call creates -/

/-- The chunk of a document. -/
def documentChunk (key val : Bytes) (addr : BlockAddress) (metadata : MetaData) : Bytes :=
  ofByteData ChunkType.kDocument.toByte (Document.dataOf key val addr metadata)

/-- What is found under the key of the entry `e` of a call, which stands at position `e.2`. -/
def documentAt (name : Bytes) (seqno : ℕ) (now : UInt64) (version : Bytes → ℕ)
    (e : (Bytes × Bytes) × ℕ) : Bytes :=
  documentChunk e.1.1 e.1.2 ⟨name, seqno⟩ ⟨e.2, version e.1.1, now.toNat⟩

theorem createDocuments_eq {es : StdMap Bytes} {seqno : ℕ} {now : UInt64} {version : Bytes → ℕ}
    (hname : name.length < 2 ^ 32) (hversion : ∀ k, nextVersion (es.lookup k) = version k) :
    ∀ {entries created : List (Bytes × Bytes)} {i : ℕ} {q q' : QLDB},
      Represents q.indexed q.db es →
      createDocuments name seqno now i entries q = .ok (created, q') →
      created = (entries.zipIdx i).map (fun e => (historyKey e.1.1 (version e.1.1),
        documentAt name seqno now version e)) ∧
      (∀ e ∈ entries.zipIdx i, Document.encode e.1.1 e.1.2 ⟨name, seqno⟩
        ⟨e.2, version e.1.1, now.toNat⟩ = .ok (documentAt name seqno now version e)) ∧
      q.db.SameAnswers q'.db ∧ q'.indexed = q.indexed ∧ q'.history = q.history
  | [], created, i, q, q', _, h => by
    obtain ⟨rfl, rfl⟩ := Prod.mk.inj (Except.ok.inj h)
    exact ⟨rfl, fun e he => absurd he List.not_mem_nil, SameAnswers.refl q.db, rfl, rfl⟩
  | (key, val) :: rest, created, i, q, q', hidx, h => by
    have hname' : (BlockAddress.mk name seqno).ledgerName.length < 2 ^ 32 := hname
    obtain ⟨db₁, hget, hsame⟩ := hidx.get key
    obtain ⟨⟨latest, q₁⟩, hlatest, h⟩ := bind_eq_ok_iff.mp h
    rw [getCommitted, hget] at hlatest
    obtain ⟨rfl, rfl⟩ := Prod.mk.inj (Except.ok.inj hlatest)
    simp only [hversion] at h
    obtain ⟨document, hdoc, h⟩ := bind_eq_ok_iff.mp h
    obtain ⟨⟨documents, q₂⟩, hrest, h⟩ := bind_eq_ok_iff.mp h
    obtain ⟨rfl, rfl⟩ := Prod.mk.inj (Except.ok.inj h)
    have hchunk := ((Document.encode_eq_ok_iff hname').mp hdoc).2
    obtain ⟨hcreated, hencode, hsame', hindexed, hhistory⟩ :=
      createDocuments_eq hname hversion (q := { q with db := db₁ }) (hidx.sameAnswers hsame) hrest
    refine ⟨?_, ?_, hsame.trans hsame', hindexed, hhistory⟩
    · rw [hcreated, hchunk]
      rfl
    · intro e he
      rw [List.zipIdx_cons] at he
      rcases List.mem_cons.mp he with rfl | he
      · exact hdoc.trans (congrArg Except.ok hchunk)
      · exact hencode e he

/-! ### The indexes -/

theorem getElem?_append_toList {α : Type} (l : List α) (o : Option α) (v : ℕ) :
    (l ++ o.toList)[v]? = if v = l.length then o else l[v]? := by
  split_ifs with hv
  · rw [List.getElem?_append_right hv.ge, hv, Nat.sub_self]
    cases o <;> rfl
  · rcases Nat.lt_or_ge v l.length with hlt | hge
    · rw [List.getElem?_append_left hlt]
    · rw [List.getElem?_eq_none hge, List.getElem?_eq_none]
      rw [List.length_append]
      cases o <;> simp <;> omega

/-- The document of `key` in a block, if the block has one. -/
def written (name key : Bytes) (entries : List (Bytes × Bytes)) (seqno : ℕ) (now : UInt64)
    (version : ℕ) : Option Bytes :=
  (entries.zipIdx.find? fun e => e.1.1 == key).map (documentAt name seqno now fun _ => version)

/-- The indexes have the documents `docs` of each key, and the next block has the number `seqno`.
The field for the version in a document bounds the documents of a key. -/
structure Recorded (name : Bytes) (q : QLDB) (seqno : ℕ) (docs : Bytes → List Bytes) : Prop where
  indexed : ∃ es, q.indexed.pre = str "COMMITTED_" ∧ Represents q.indexed q.db es ∧
    ∀ k, (docs k).length ≤ 2 ^ 32 → es.lookup k = (docs k).getLast?
  history : ∃ hs, q.history.pre = str "HISTORY_" ∧ Represents q.history q.db hs ∧
    ∀ k, (docs k).length ≤ 2 ^ 32 → ∀ v, hs.lookup (historyKey k v) = (docs k)[v]?
  versions : ∀ k, (docs k).length ≤ 2 ^ 32 → ∀ v d, (docs k)[v]? = some d →
    ∃ val addr docSeq time, addr.ledgerName.length < 2 ^ 32 ∧
      Document.encode k val addr ⟨docSeq, v, time⟩ = .ok d
  tip : seqno = 0 ∧ q.db.getString name = none ∨
    0 < seqno ∧ ∃ h, q.db.getString name = some (tipRecord (seqno - 1) h)

namespace Recorded

variable {seqno : ℕ} {docs : Bytes → List Bytes}

/-- The last document carries its version. -/
theorem version_getLast? (h : Recorded name q seqno docs) (hlen : (docs key).length ≤ 2 ^ 32)
    {d : Bytes} (hd : (docs key).getLast? = some d) :
    (Document.ofChunk d).metadata.version + 1 = (docs key).length := by
  have hne : docs key ≠ [] := by
    rintro hnil
    rw [hnil] at hd
    cases hd
  have hpos : 0 < (docs key).length := List.length_pos_iff.mpr hne
  rw [List.getLast?_eq_getElem?] at hd
  obtain ⟨val, addr, docSeq, time, hname, hencode⟩ := h.versions key hlen _ d hd
  have hfields : Document.ofChunk (d ++ []) = _ := Document.ofChunk_encode hname hencode
  rw [List.append_nil] at hfields
  have hver : (Document.ofChunk d).metadata.version = ((docs key).length - 1) % 256 ^ 4 := by
    rw [hfields]
    rfl
  rw [hver, Nat.mod_eq_of_lt (by omega)]
  omega

theorem nextVersion_getLast? (h : Recorded name q seqno docs) (hlen : (docs key).length ≤ 2 ^ 32) :
    nextVersion (docs key).getLast? = (docs key).length := by
  cases hd : (docs key).getLast? with
  | none =>
    rw [List.getLast?_eq_none_iff.mp hd]
    rfl
  | some d => exact h.version_getLast? hlen hd

theorem nextBlock (h : Recorded name q seqno docs) {seqno' : ℕ} {prevHash : Hash}
    (hnext : nextBlock H ((q.db.getString name).getD []) = .ok (seqno', prevHash)) :
    seqno' = seqno := by
  rcases h.tip with ⟨rfl, hnone⟩ | ⟨hpos, hash, hsome⟩
  · rw [hnone] at hnext
    exact (Prod.mk.inj (Except.ok.inj hnext)).1.symm
  · rw [hsome, Option.getD_some] at hnext
    rw [nextBlock_tipRecord hnext]
    omega

/-- **A call of `Set`** adds its documents to both indexes. -/
theorem addBlock (h : Recorded name q seqno docs) (hapart : Apart name)
    {entries : List (Bytes × Bytes)} {env : Env} (hnodup : (entries.map Prod.fst).Nodup)
    (hinfi : NoInfi entries) (hadd : QLDB.addBlock H cfg q name entries env = .ok q') :
    Recorded name q' (seqno + 1) fun k =>
      docs k ++ (written name k entries seqno env.now (docs k).length).toList := by
  obtain ⟨c, hagree, hindexed', hhistory', htip, hname⟩ := addBlock_agree hadd
  obtain rfl : c.seqno = seqno := h.nextBlock c.nextBlock_eq
  obtain ⟨es, hpre, hrep, hes⟩ := h.indexed
  obtain ⟨hs, hpre', hrep', hhs⟩ := h.history
  -- each document gets the number of those before it as its version
  obtain ⟨version, hversion⟩ : ∃ version : Bytes → ℕ, ∀ k, nextVersion (es.lookup k) = version k :=
    ⟨_, fun _ => rfl⟩
  obtain ⟨hcreated, hencode, hsame, hq₁i, hq₁h⟩ :=
    createDocuments_eq hname hversion hrep c.created_eq
  obtain ⟨b, hset⟩ := c.indexed_eq
  obtain ⟨b', hset'⟩ := c.history_eq
  rw [hq₁i] at hset
  rw [hq₁h] at hset'
  have hlen : ∀ k, (docs k).length ≤ 2 ^ 32 → version k = (docs k).length := by
    intro k hk
    rw [← hversion, hes k hk, h.nextVersion_getLast? hk]
  have hfst : entries.zipIdx.map (fun e => e.1.1) = entries.map Prod.fst := by
    rw [← List.zipIdx_map_fst 0 entries, List.map_map, List.zipIdx_map_fst]
    rfl
  have hbatch : (entries.map Prod.fst).zip (c.created.map Prod.snd) = entries.zipIdx.map fun e =>
      (e.1.1, documentAt name c.seqno env.now version e) := by
    rw [← hfst, hcreated, List.map_map, List.zip_map']
    rfl
  have hwritten : ∀ k, (docs k).length ≤ 2 ^ 32 →
      (entries.zipIdx.find? fun e => e.1.1 == k).map (documentAt name c.seqno env.now version) =
        written name k entries c.seqno env.now (docs k).length := by
    intro k hk
    rw [written]
    cases hfind : entries.zipIdx.find? fun e => e.1.1 == k with
    | none => rfl
    | some e =>
      have hpred := List.find?_some (p := fun e : (Bytes × Bytes) × ℕ => e.1.1 == k) hfind
      obtain rfl : e.1.1 = k := beq_iff_eq.mp hpred
      rw [Option.map_some, Option.map_some, documentAt, documentAt, hlen _ hk]
  -- the first index
  have hinfi₁ : NoInfi ((entries.map Prod.fst).zip (c.created.map Prod.snd)) := by
    rw [NoInfi, hbatch, List.map_map]
    intro hmem
    rw [NoInfi, ← hfst] at hinfi
    exact hinfi hmem
  obtain ⟨-, hpre₁, hrep₁, hwrites₁⟩ := ((hrep.sameAnswers hsame).set hinfi₁).of_ok hset
  rw [hpre] at hpre₁ hwrites₁
  -- the second index
  have hrep'₁ : Represents q.history c.db₁ hs := by
    apply (hrep'.sameAnswers hsame).congr
    intro y hy
    rw [hpre'] at hy
    exact hwrites₁.chunkAt y fun hy' => not_isName_committed_and_history hy' hy
  have hinfi₂ : NoInfi c.created := by
    rw [NoInfi, hcreated, List.map_map]
    intro hmem
    obtain ⟨e, -, heq⟩ := List.mem_map.mp hmem
    exact historyKey_ne_infi _ _ heq
  obtain ⟨-, hpre₂, hrep₂, hwrites₂⟩ := (hrep'₁.set hinfi₂).of_ok hset'
  rw [hpre'] at hpre₂ hwrites₂
  have hgood : ∀ k, (docs k ++ (written name k entries c.seqno env.now (docs k).length).toList).length
      ≤ 2 ^ 32 → (docs k).length ≤ 2 ^ 32 := by
    intro k hk
    rw [List.length_append] at hk
    omega
  have hrep₁' : Represents c.indexed q'.db (assignAll es ((entries.map Prod.fst).zip
      (c.created.map Prod.snd))) := by
    apply hrep₁.congr
    intro y hy
    rw [hpre₁] at hy
    rw [hagree.chunkAt y fun hy' => (hapart y hy').1 hy]
    exact hwrites₂.chunkAt y fun hy' => not_isName_committed_and_history hy hy'
  have hrep₂' : Represents c.history q'.db (assignAll hs c.created) := by
    apply hrep₂.congr
    intro y hy
    rw [hpre₂] at hy
    exact hagree.chunkAt y fun hy' => (hapart y hy').2 hy
  rw [← hindexed'] at hpre₁ hrep₁'
  rw [← hhistory'] at hpre₂ hrep₂'
  refine ⟨⟨_, hpre₁, hrep₁', fun k hk => ?_⟩, ⟨_, hpre₂, hrep₂', fun k hk v => ?_⟩,
    fun k hk v d hd => ?_, ?_⟩
  · have hnodup₁ : (((entries.map Prod.fst).zip (c.created.map Prod.snd)).map Prod.fst).Nodup := by
      rw [hbatch, List.map_map]
      exact hfst ▸ hnodup
    rw [QLBTree.lookup_assignAll hnodup₁, hbatch, lookup_map, hwritten k (hgood k hk),
      hes k (hgood k hk)]
    cases written name k entries c.seqno env.now (docs k).length with
    | none => rw [Option.none_or, Option.toList_none, List.append_nil]
    | some d => rw [Option.some_or, Option.toList_some, List.getLast?_concat]
  · have hnodup₂ : (c.created.map Prod.fst).Nodup := by
      have hkeys : ((entries.map Prod.fst).map fun k => historyKey k (version k)).Nodup :=
        hnodup.map fun k k' heq => (historyKey_inj.mp heq).1
      rw [← hfst, List.map_map] at hkeys
      rw [hcreated, List.map_map]
      exact hkeys
    rw [QLBTree.lookup_assignAll hnodup₂, hcreated, lookup_map, hhs k (hgood k hk),
      getElem?_append_toList]
    split_ifs with hv
    · have hpred : (fun e : (Bytes × Bytes) × ℕ =>
          historyKey e.1.1 (version e.1.1) == historyKey k v) = fun e => e.1.1 == k := by
        funext e
        rw [Bool.eq_iff_iff, beq_iff_eq, beq_iff_eq, historyKey_inj]
        refine ⟨And.left, fun heq => ⟨heq, ?_⟩⟩
        rw [heq, hlen k (hgood k hk), hv]
      rw [hpred, hwritten k (hgood k hk), hv, List.getElem?_eq_none le_rfl, Option.or_none]
    · have hnone : (entries.zipIdx.find? fun e =>
          historyKey e.1.1 (version e.1.1) == historyKey k v) = none := by
        rw [List.find?_eq_none]
        intro e _ heq
        obtain ⟨hk', hv'⟩ := historyKey_inj.mp (beq_iff_eq.mp heq)
        rw [hk', hlen k (hgood k hk)] at hv'
        exact hv hv'.symm
      rw [hnone, Option.map_none, Option.none_or]
  · rw [getElem?_append_toList] at hd
    split_ifs at hd with hv
    · rw [← hwritten k (hgood k hk)] at hd
      obtain ⟨e, hfind, rfl⟩ := Option.map_eq_some_iff.mp hd
      have hpred := List.find?_some (p := fun e : (Bytes × Bytes) × ℕ => e.1.1 == k) hfind
      obtain rfl : e.1.1 = k := beq_iff_eq.mp hpred
      have hdoc := hencode e (List.mem_of_find?_eq_some hfind)
      rw [hlen _ (hgood _ hk), ← hv] at hdoc
      exact ⟨_, _, _, _, hname, hdoc⟩
    · exact h.versions k (hgood k hk) v d hd
  · right
    refine ⟨Nat.succ_pos _, c.blockHash, ?_⟩
    rw [Nat.add_sub_cancel]
    exact htip

/-! ### Reading the history -/

/-- The loop of `GetHistory` returns the documents before the one at `i`, newest first. -/
theorem historyLoop_eq {hs : StdMap Bytes} {l : List Bytes} : ∀ {i left : ℕ} {q : QLDB},
    Represents q.history q.db hs → (∀ v, hs.lookup (historyKey key v) = l[v]?) → i ≤ l.length →
      ∃ q', historyLoop name key i left q = .ok (((l.take i).reverse.take left).map some, q')
  | 0, left, q, _, _, _ => ⟨q, by rw [historyLoop]; simp⟩
  | i + 1, 0, q, _, _, _ => ⟨q, by rw [historyLoop, List.take_zero, List.map_nil]⟩
  | i + 1, left + 1, q, hrep, hlook, hle => by
    have hi : i < l.length := hle
    obtain ⟨db', hget, hsame⟩ := hrep.get (historyKey key i)
    obtain ⟨q', hloop⟩ : ∃ q', historyLoop name key i left { q with db := db' } =
        .ok (((l.take i).reverse.take left).map some, q') :=
      historyLoop_eq (hrep.sameAnswers hsame) hlook hi.le
    refine ⟨q', ?_⟩
    rw [historyLoop, getVersion, hget, hlook]
    show (historyLoop name key i left { q with db := db' } >>= fun r =>
      pure (l[i]? :: r.1, r.2)) = _
    rw [hloop]
    show Except.ok (l[i]? :: _, q') = _
    rw [List.getElem?_eq_getElem hi, ← List.take_append_getElem hi, List.reverse_append,
      List.reverse_singleton, List.singleton_append, List.take_succ_cons, List.map_cons]

/-- The first document, and from there on the loop. -/
theorem getHistory_of_get {db' : DB} {d : Bytes} {n : ℕ}
    (hget : q.indexed.get key q.db = .ok (some d, db')) :
    q.getHistory name key n =
      historyLoop name key (Document.ofChunk d).metadata.version n { q with db := db' } >>= fun r =>
        .ok (some d :: r.1, r.2) := by
  have hcommitted : q.getCommitted name key = .ok (some d, { q with db := db' }) := by
    rw [getCommitted, hget]
    rfl
  have hderef : deref (some d) = .ok d := rfl
  rw [getHistory, hcommitted, ok_bind]
  dsimp only
  rw [hderef, ok_bind]
  rfl

/-- **`GetHistory`** of a key that was written returns one document more than it is asked for. -/
theorem getHistory_eq (h : Recorded name q seqno docs) (hlen : (docs key).length ≤ 2 ^ 32)
    (hne : docs key ≠ []) (n : ℕ) :
    ∃ q', q.getHistory name key n = .ok (((docs key).reverse.take (n + 1)).map some, q') := by
  obtain ⟨es, -, hrep, hes⟩ := h.indexed
  obtain ⟨hs, -, hrep', hhs⟩ := h.history
  obtain ⟨d, hd⟩ : ∃ d, (docs key).getLast? = some d := ⟨_, List.getLast?_eq_some_getLast hne⟩
  have hversion := h.version_getLast? hlen hd
  obtain ⟨l, hl⟩ := List.getLast?_eq_some_iff.mp hd
  obtain ⟨db', hget, hsame⟩ := hrep.get key
  rw [hl, List.length_append, List.length_singleton] at hversion
  have hi : (Document.ofChunk d).metadata.version = l.length := by omega
  have hle : l.length ≤ (docs key).length := by
    rw [hl, List.length_append]
    omega
  obtain ⟨q', hloop⟩ : ∃ q', historyLoop name key l.length n { q with db := db' } =
      .ok ((((docs key).take l.length).reverse.take n).map some, q') :=
    historyLoop_eq (hrep'.sameAnswers hsame) (hhs key hlen) hle
  refine ⟨q', ?_⟩
  rw [hes key hlen, hd] at hget
  rw [getHistory_of_get hget, hi, hloop, ok_bind, hl, List.take_left, List.reverse_append,
    List.reverse_singleton, List.singleton_append, List.take_succ_cons, List.map_cons]

/-- A key that was never written has no document to start from. -/
theorem getHistory_error (h : Recorded name q seqno docs) (hnil : docs key = []) (n : ℕ) :
    q.getHistory name key n = .error .nullChunk := by
  obtain ⟨es, -, hrep, hes⟩ := h.indexed
  obtain ⟨db', hget, -⟩ := hrep.get key
  have hnone : es.lookup key = none := by
    rw [hes key (by rw [hnil]; exact Nat.zero_le _), hnil]
    rfl
  rw [getHistory, getCommitted, hget, hnone]
  rfl

end Recorded

/-! ### Runs -/

/-- What a call writes; sizes that differ are refused. -/
def SetCall.entries (c : SetCall) : List (Bytes × Bytes) :=
  if c.keys.length = c.vals.length then c.keys.zip c.vals else []

/-- The keys of a call are distinct, and none is the reserved one. -/
structure SetCall.Proper (c : SetCall) : Prop where
  nodup : c.keys.Nodup
  noInfi : infi ∉ c.keys

/-- The documents of a key after the calls `cs`, where `docs` are those before them and `seqno` is
the number of the next block. -/
def documentsOf (name key : Bytes) : (seqno : ℕ) → (docs : List Bytes) → List SetCall → List Bytes
  | _, docs, [] => docs
  | seqno, docs, c :: cs =>
    if c.entries = [] then documentsOf name key seqno docs cs
    else documentsOf name key (seqno + 1)
      (docs ++ (written name key c.entries seqno c.env.now docs.length).toList) cs

theorem SetCall.map_fst_entries (c : SetCall) :
    c.entries.map Prod.fst = c.keys ∨ c.entries = [] := by
  unfold SetCall.entries
  split_ifs with hlen
  · exact Or.inl (List.map_fst_zip hlen.le)
  · exact Or.inr rfl

/-- A call adds a block exactly if it writes something. -/
theorem SetCall.run_eq {c : SetCall}
    (hrun : (do return (← q.set H cfg name c.keys c.vals c.env).2) = Except.ok q') :
    if c.entries = [] then q' = q else addBlock H cfg q name c.entries c.env = .ok q' := by
  unfold SetCall.entries
  obtain ⟨⟨b, q₁⟩, hset, hrun⟩ := bind_eq_ok_iff.mp hrun
  obtain rfl : q₁ = q' := Except.ok.inj hrun
  rw [set] at hset
  by_cases hlen : c.keys.length = c.vals.length
  · rw [if_pos hlen]
    rw [if_neg (not_not.mpr hlen)] at hset
    by_cases hzero : c.keys.length = 0
    · rw [if_pos hzero] at hset
      rw [List.length_eq_zero_iff.mp hzero, List.zip_nil_left, if_pos rfl]
      exact (Prod.mk.inj (Except.ok.inj hset)).2.symm
    · rw [if_neg hzero] at hset
      have hne : c.keys.zip c.vals ≠ [] := by
        rw [Ne, ← List.length_eq_zero_iff, List.length_zip]
        omega
      rw [if_neg hne]
      obtain ⟨q₂, hadd, heq⟩ := bind_eq_ok_iff.mp hset
      obtain ⟨-, rfl⟩ := Prod.mk.inj (Except.ok.inj heq)
      exact hadd
  · rw [if_neg hlen, if_pos rfl]
    rw [if_pos hlen] at hset
    exact (Prod.mk.inj (Except.ok.inj hset)).2.symm

/-- **A run** adds the documents of its calls. -/
theorem Recorded.setAll {cs : List SetCall} : ∀ {q : QLDB} {seqno : ℕ} {docs : Bytes → List Bytes},
    Recorded name q seqno docs → Apart name → (∀ c ∈ cs, c.Proper) →
      QLDB.setAll H cfg name q cs = .ok q' →
      ∃ seqno', Recorded name q' seqno' fun k => documentsOf name k seqno (docs k) cs := by
  induction cs with
  | nil =>
    intro q seqno docs h _ _ hrun
    obtain rfl := Except.ok.inj hrun
    exact ⟨seqno, h⟩
  | cons c cs ih =>
    intro q seqno docs h hapart hcalls hrun
    rw [QLDB.setAll, List.foldlM_cons] at hrun
    obtain ⟨q₁, hstep, hrest⟩ := bind_eq_ok_iff.mp hrun
    have hcall := SetCall.run_eq hstep
    have hproper := hcalls c List.mem_cons_self
    have hcalls' : ∀ c ∈ cs, c.Proper := fun c hc => hcalls c (List.mem_cons_of_mem _ hc)
    simp only [documentsOf]
    by_cases hempty : c.entries = []
    · rw [if_pos hempty] at hcall
      simp only [if_pos hempty]
      rw [hcall] at hrest
      exact ih h hapart hcalls' hrest
    · rw [if_neg hempty] at hcall
      simp only [if_neg hempty]
      have hkeys := c.map_fst_entries.resolve_right hempty
      apply ih _ hapart hcalls' hrest
      exact h.addBlock hapart (hkeys ▸ hproper.nodup) (by rw [NoInfi, hkeys]; exact hproper.noInfi)
        hcall

/-- A new ledger has no documents. -/
theorem recorded_emptyLedger (name : Bytes) : Recorded name emptyLedger 0 fun _ => [] := by
  have hempty : ∀ t : QLBTree, t.root = QLBTreeMap.emptyMap →
      emptyLedger.db.chunkAt (rootId t.pre) = none → Represents t emptyLedger.db [] := by
    intro t hroot hnone
    refine ⟨StdMap.ordered_nil, List.not_mem_nil, ⟨0, QLBTree.node_zero.mpr ⟨[], ?_,
      iff_of_true rfl rfl⟩⟩, Or.inr ⟨hnone, hroot⟩⟩
    rw [hroot]
    exact QLBTreeMap.encode_nil
  refine ⟨⟨[], rfl, hempty _ rfl (by decide), fun _ _ => rfl⟩,
    ⟨[], rfl, hempty _ rfl (by decide), fun _ _ _ => by rw [List.getElem?_nil]; rfl⟩,
    fun _ _ v d hd => ?_, Or.inl ⟨rfl, rfl⟩⟩
  rw [List.getElem?_nil] at hd
  cases hd

/-- **`GetHistory`** returns the most recent documents of a key exactly if the key was written and
no more documents are there than are asked for. -/
theorem getHistory_iff {cs : List SetCall} {n : ℕ} (hapart : Apart name)
    (hcalls : ∀ c ∈ cs, c.Proper) (hrun : setAll H cfg name emptyLedger cs = .ok q)
    (hlen : (documentsOf name key 0 [] cs).length ≤ 2 ^ 32) :
    (∃ q', q.getHistory name key n =
        .ok (((documentsOf name key 0 [] cs).reverse.take n).map some, q')) ↔
      documentsOf name key 0 [] cs ≠ [] ∧ (documentsOf name key 0 [] cs).length ≤ n := by
  obtain ⟨seqno, h⟩ := (recorded_emptyLedger name).setAll hapart hcalls hrun
  constructor
  · rintro ⟨q', hok⟩
    have hne : documentsOf name key 0 [] cs ≠ [] := by
      intro hnil
      rw [h.getHistory_error hnil] at hok
      cases hok
    obtain ⟨q'', hget⟩ := h.getHistory_eq hlen hne n
    rw [hget] at hok
    have hcount := congrArg List.length (Prod.mk.inj (Except.ok.inj hok)).1
    simp only [List.length_map, List.length_take, List.length_reverse] at hcount
    exact ⟨hne, by omega⟩
  · rintro ⟨hne, hle⟩
    obtain ⟨q', hget⟩ := h.getHistory_eq hlen hne n
    refine ⟨q', ?_⟩
    rw [hget, List.take_of_length_le, List.take_of_length_le]
    · rw [List.length_reverse]
      exact hle
    · rw [List.length_reverse]
      omega

theorem exists_oneCall : ∃ q,
    setAll (Hash.ofTable []) {} (str "test") emptyLedger [oneCall] = .ok q := by
  have hok : (setAll (Hash.ofTable []) {} (str "test") emptyLedger [oneCall]).toBool := by
    decide +kernel
  cases hrun : setAll (Hash.ofTable []) {} (str "test") emptyLedger [oneCall] with
  | error e =>
    rw [hrun] at hok
    cases hok
  | ok q => exact ⟨q, rfl⟩

theorem getHistory_iff_one : ∃ q,
    setAll (Hash.ofTable []) {} (str "test") emptyLedger [oneCall] = .ok q ∧
      ((∃ q', q.getHistory (str "test") (str "k") 1 =
          .ok (((documentsOf (str "test") (str "k") 0 [] [oneCall]).reverse.take 1).map some, q')) ↔
        documentsOf (str "test") (str "k") 0 [] [oneCall] ≠ [] ∧
          (documentsOf (str "test") (str "k") 0 [] [oneCall]).length ≤ 1) := by
  obtain ⟨q, hrun⟩ := exists_oneCall
  have hapart : Apart (str "test") := by
    apply apart_of_head?
    intro b hb
    obtain rfl : 116 = b := Option.some.inj hb
    decide
  have hcalls : ∀ c ∈ [oneCall], c.Proper := by
    intro c hc
    rw [List.mem_singleton.mp hc]
    exact ⟨by decide, by decide⟩
  exact ⟨q, hrun, getHistory_iff hapart hcalls hrun (by decide +kernel)⟩

/-- No document is asked for, and one is returned. -/
theorem getHistory_returns_one : ∃ q,
    setAll (Hash.ofTable []) {} (str "test") emptyLedger [oneCall] = .ok q ∧
      (documentsOf (str "test") (str "k") 0 [] [oneCall]).length = 1 ∧
      ¬ ∃ q', q.getHistory (str "test") (str "k") 0 =
        .ok (((documentsOf (str "test") (str "k") 0 [] [oneCall]).reverse.take 0).map some, q') := by
  have hone : ((setAll (Hash.ofTable []) {} (str "test") emptyLedger [oneCall]).map fun q =>
      (q.getHistory (str "test") (str "k") 0).map fun r => r.1.length) = .ok (.ok 1) := by
    decide +kernel
  obtain ⟨q, hrun⟩ := exists_oneCall
  rw [hrun] at hone
  refine ⟨q, hrun, by decide +kernel, ?_⟩
  rintro ⟨q', hok⟩
  have hone' : (q.getHistory (str "test") (str "k") 0).map (fun r => r.1.length) = .ok 1 :=
    Except.ok.inj hone
  rw [hok] at hone'
  exact absurd (Except.ok.inj hone') (by rw [List.take_zero]; exact Nat.zero_ne_one)

end QLDB

end LedgerDatabase.Qldb
