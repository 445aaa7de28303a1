import LedgerDatabase.Sqlledger.Equiv.Audit

/-!
# The proof of a document

`DetailProof::Verify` gets the root of the tree over the transactions of a block, and asks that the
root in the entry of the transaction, which is that of the tree over its documents, is the same one.
These trees have different leaves, so the same root means that two strings have the same hash, or that
a document or an entry is an inner node of the other tree (`not_verify_detailProof`).

This needs to know what is read back: under `<key>|<block>` a document, unless this is the name of
another record, and under `txn<number>` the entry of a transaction (`Stored`).
-/

namespace LedgerDatabase.Sqlledger

open Ledgerdb (NoBar noBar_toDecimal)
open Ledgerdb.MerkleTree (merkleRoot height)
open Ledgerdb.Mpt (Collision injOn_of_not_collision)
open MerkleTree (nodeKey)
open Qldb (treeNodes)
open Qldb.QLBTree (IsName)
open SQLLedger

variable {H : Bytes → Hash} {cfg : Qldb.BPlusConfig} {t : Threads} {taken : List Block} {a : Step}

/-! ### What is stored -/

/-- A string that starts like a document. -/
def IsDocument (d : Bytes) : Prop :=
  ∃ b tid rest, d = toDecimal b ++ 124 :: (txnKey tid ++ 124 :: rest)

theorem isDocument_documents : ∀ {b tid now i : ℕ} {keys vals docs : List Bytes},
    documents b tid now i keys vals = .ok docs → ∀ d ∈ docs, IsDocument d
  | _, _, _, _, [], _, docs, h => by
    rw [← Except.ok.inj h]
    exact fun _ hd => absurd hd List.not_mem_nil
  | _, _, _, _, _ :: _, [], _, h => nomatch h
  | b, tid, now, i, key :: keys, val :: vals, docs, h => by
    rw [documents] at h
    obtain ⟨docs', hdocs, h⟩ := bind_eq_ok_iff.mp h
    rw [← Except.ok.inj h]
    intro d hd
    rcases List.mem_cons.mp hd with rfl | hd
    · refine ⟨b, tid, toDecimal i ++ (str "|" ++ (key ++ (str "|" ++ (val ++
        (str "|" ++ toDecimal now))))), ?_⟩
      simp [document, show str "|" = [124] from rfl]
    · exact isDocument_documents hdocs d hd

/-- The second field of a document names its transaction. -/
theorem splitBy_document {d : Bytes} (h : IsDocument d) : ∃ tid, at? (splitBy d 124) 1 = .ok (txnKey tid) := by
  obtain ⟨b, tid, rest, rfl⟩ := h
  have hone {x : Bytes} (hx : NoBar x) : splitBy x 124 = [x] := List.splitOn_eq_singleton hx
  refine ⟨tid, ?_⟩
  rw [splitBy_append, splitBy_append, hone (noBar_toDecimal b), hone (noBar_txnKey tid)]
  rfl

/-- A document is not the entry of a transaction. -/
theorem IsDocument.ne_txnEntry {d : Bytes} (h : IsDocument d) (b i : ℕ) (txn : Txn) :
    d ≠ txnEntry H b i txn := by
  obtain ⟨b', tid, rest, rfl⟩ := h
  intro heq
  -- a document starts with a digit
  have hhead : (116 : UInt8) ∈ toDecimal b' := by
    cases hd : toDecimal b' with
    | nil => exact absurd hd (toDecimal_ne_nil b')
    | cons c rest' =>
      rw [hd, List.cons_append, txnEntry, txnKey] at heq
      rw [(List.cons.inj heq).1]
      exact List.mem_cons_self
  exact not_mem_toDecimal (by decide) b' hhead

/-- A record of a transaction is its entry. -/
def IsEntry (H : Bytes → Hash) (tid : ℕ) (v : Bytes) : Prop :=
  ∃ b i docs, v = txnEntry H b i (tid, docs) ∧ ∀ d ∈ docs, IsDocument d

/-- The documents that a call of `Set` still has to store. -/
def Made : Setting → Prop
  | .storing _ _ _ _ _ left => ∀ e ∈ left, IsDocument e.2
  | _ => True

/-- The documents of the transactions of a block that still have to be built. -/
def Remaining : Updating → Prop
  | .sleeping => True
  | .building _ _ left _ => ∀ txn ∈ left, ∀ d ∈ txn.2, IsDocument d

/-- What is stored for documents and transactions. -/
structure Stored (H : Bytes → Hash) (t : Threads) : Prop where
  pre : t.ledger.indexed.pre = str "COMMITTED_"
  made : Made t.setting
  buffer : ∀ txn ∈ t.ledger.buffer, ∀ d ∈ txn.2, IsDocument d
  remaining : Remaining t.updating
  document : ∀ y d, ¬ IsInternal y → t.ledger.db.getString y = some d → IsDocument d
  entry : ∀ tid v, t.ledger.db.getString (txnKey tid) = some v → IsEntry H tid v

/-- The name of a transaction is not that of another record. -/
theorem txnKey_ne_histKey (tid : ℕ) (key : Bytes) (b : ℕ) : txnKey tid ≠ histKey key b := by
  intro h
  apply noBar_txnKey tid
  rw [h, histKey, histPrefix]
  exact List.mem_append_left _ (List.mem_append_right _ (by decide))

theorem txnKey_ne_nodeKey (tid : ℕ) (mtid : Bytes) (l i : ℕ) : txnKey tid ≠ nodeKey mtid l i := by
  intro h
  apply noBar_txnKey tid
  rw [h, nodeKey]
  exact List.mem_append_left _ (List.mem_append_right _ (by decide))

theorem not_isName_txnKey (tid : ℕ) : ¬ IsName (str "COMMITTED_") (txnKey tid) := by
  rintro (h | ⟨n, x, h⟩)
  · cases (List.cons.inj h).1
  · cases (List.cons.inj h).1

theorem mem_emplace {tid : ℕ} {docs : List Bytes} {buffer : List Txn} {txn : Txn}
    (h : txn ∈ emplace tid docs buffer) : txn = (tid, docs) ∨ txn ∈ buffer := by
  induction buffer with
  | nil => exact Or.inl (List.mem_singleton.mp h)
  | cons e buffer ih =>
    rw [emplace] at h
    split_ifs at h
    · exact Or.inr h
    · exact List.mem_cons.mp h
    · rcases List.mem_cons.mp h with rfl | h
      · exact Or.inr List.mem_cons_self
      · exact (ih h).imp_right (List.mem_cons_of_mem _)

namespace Stored

theorem start : Stored H start where
  pre := rfl
  made := trivial
  buffer _ h := absurd h List.not_mem_nil
  remaining := trivial
  document _ _ _ h := nomatch h
  entry _ _ h := nomatch h

/-- A step that writes neither documents nor entries. -/
theorem keeps {t' : Threads} (h : Stored H t) (hkeeps : KeepsDocuments t.ledger t'.ledger)
    (hmade : Made t'.setting) (hbuffer : ∀ txn ∈ t'.ledger.buffer, ∀ d ∈ txn.2, IsDocument d)
    (hremaining : Remaining t'.updating)
    (hentry : ∀ tid v, t'.ledger.db.getString (txnKey tid) = some v → IsEntry H tid v) :
    Stored H t' where
  pre := hkeeps.pre.trans h.pre
  made := hmade
  buffer := hbuffer
  remaining := hremaining
  document y d hy hd := h.document y d hy ((hkeeps.getString y hy).symm.trans hd)
  entry := hentry

/-- **Every step** stores documents and entries only. -/
theorem step {t' : Threads} (h : Stored H t) (hstep : Sqlledger.step H cfg t a = some t') :
    Stored H t' := by
  have hmade := h.made
  have hremaining := h.remaining
  cases stepped_of_step hstep with
  | beginSet hidle hdocs =>
    refine h.keeps ⟨rfl, fun _ _ => rfl⟩ ?_ ?_ hremaining h.entry
    · exact fun e he => isDocument_documents hdocs e.2 (List.of_mem_zip he).2
    · intro txn htxn
      rcases mem_emplace htxn with rfl | htxn
      · exact isDocument_documents hdocs
      · exact h.buffer txn htxn
  | @putDocument keys vals docs now b e left hstoring =>
    rw [hstoring] at hmade
    refine ⟨h.pre, fun e' he' => hmade e' (List.mem_cons_of_mem _ he'), h.buffer, hremaining, ?_, ?_⟩
    · intro y d hy hd
      replace hd := (DB.getString_putString ..).symm.trans hd
      split_ifs at hd with heq
      · rw [← Option.some.inj hd]
        exact hmade e List.mem_cons_self
      · exact h.document y d hy hd
    · intro tid v hv
      apply h.entry tid v
      replace hv := (DB.getString_putString ..).symm.trans hv
      rwa [if_neg (txnKey_ne_histKey tid _ _)] at hv
  | setIndexed hstoring hset =>
    refine h.keeps (keepsDocuments_set h.pre hset) trivial h.buffer hremaining fun tid v hv => ?_
    apply h.entry tid v
    rw [← hv]
    symm
    apply (Qldb.QLBTree.agreeOff_set hset).2.getString
    rw [h.pre]
    exact not_isName_txnKey tid
  | appendLog hlogging hchunk =>
    exact h.keeps ⟨rfl, fun _ _ => rfl⟩ trivial h.buffer hremaining h.entry
  | endSet hadvancing =>
    exact h.keeps ⟨rfl, fun _ _ => rfl⟩ trivial h.buffer hremaining h.entry
  | cutBlock hsleeping hbuffer =>
    refine h.keeps ⟨rfl, fun _ _ => rfl⟩ hmade ?_ h.buffer h.entry
    exact fun _ htxn => absurd htxn List.not_mem_nil
  | @buildTxn b i txn left leaves r hbuilding hbuild =>
    rw [hbuilding] at hremaining
    have hkeeps := keepsDocuments_buildTxn hbuild
    obtain ⟨-, db, hagree, hr⟩ := buildTxn_spec hbuild
    refine h.keeps hkeeps hmade ?_ ?_ fun tid v hv => ?_
    · rw [hr]
      exact h.buffer
    · exact fun txn' htxn' => hremaining txn' (List.mem_cons_of_mem _ htxn')
    · simp only [hr] at hv
      rw [DB.getString_putString] at hv
      split_ifs at hv with heq
      · obtain rfl := txnKey_inj.mp heq
        exact ⟨b, i, txn.2, (Option.some.inj hv).symm, hremaining txn List.mem_cons_self⟩
      · rw [hagree _ fun l i => txnKey_ne_nodeKey tid _ l i] at hv
        exact h.entry tid v hv
  | @buildBlock b i leaves s hbuilding hbuild =>
    have hkeeps := keepsDocuments_buildBlock hbuild
    have hbuffer : s.buffer = t.ledger.buffer := by
      obtain ⟨db, rfl⟩ := ledger_of_buildBlock hbuild
      rfl
    refine h.keeps hkeeps hmade ?_ trivial fun tid v hv => ?_
    · rw [hbuffer]
      exact h.buffer
    · apply h.entry tid v
      rw [SQLLedger.buildBlock] at hbuild
      obtain ⟨⟨built, db⟩, htree, hbuild⟩ := bind_eq_ok_iff.mp hbuild
      obtain ⟨prevHash, -, hbuild⟩ := bind_eq_ok_iff.mp hbuild
      rw [← Except.ok.inj hbuild] at hv
      have hsummary {y : Bytes} (hy : IsSummary y) : txnKey tid ≠ y := (hy.ne_txnKey tid).symm
      rw [DB.getString_putString, if_neg (hsummary (Or.inl rfl)), DB.getString_putString,
        if_neg (hsummary (Or.inr ⟨b, rfl⟩)),
        MerkleTree.agreesOff_build htree _ fun l i => txnKey_ne_nodeKey tid _ l i] at hv
      exact hv

theorem runs {steps : List Step} {s : Threads × List Block}
    (hrun : Run.runs (observed H cfg) (Sqlledger.start, []) steps = some s) : Stored H s.1 :=
  Run.runs_inv (P := fun s => Stored H s.1) start
    (fun _ _ _ h hstep => h.step (Run.observe_eq_some.mp hstep).1) hrun

end Stored

/-! ### `getDetailProof` -/

/-- The proof of a document has the entry of a transaction. -/
theorem Stored.of_getDetailProof (h : Stored H t) {key : Bytes} {b : ℕ} {level : ℤ} {p : DetailProof}
    (hkey : ¬ IsInternal (histKey key b)) (hp : t.ledger.getDetailProof key b level = .ok p) :
    ∃ b' i tid docs, p.txnProof.value = txnEntry H b' i (tid, docs) ∧ ∀ d ∈ docs, IsDocument d := by
  rw [getDetailProof] at hp
  obtain ⟨txnid, htxnid, hp⟩ := bind_eq_ok_iff.mp hp
  obtain ⟨_, -, hp⟩ := bind_eq_ok_iff.mp hp
  obtain ⟨_, -, hp⟩ := bind_eq_ok_iff.mp hp
  obtain ⟨field, hfield, hp⟩ := bind_eq_ok_iff.mp hp
  obtain ⟨_, -, hp⟩ := bind_eq_ok_iff.mp hp
  obtain ⟨_, -, hp⟩ := bind_eq_ok_iff.mp hp
  obtain ⟨_, -, hp⟩ := bind_eq_ok_iff.mp hp
  obtain ⟨_, -, hp⟩ := bind_eq_ok_iff.mp hp
  obtain rfl := Except.ok.inj hp
  -- the record under the key and the block is a document
  obtain ⟨tid, rfl⟩ : ∃ tid, txnid = txnKey tid := by
    rw [getDataAtBlock] at htxnid
    cases hd : t.ledger.db.getString (histKey key b) with
    | none =>
      rw [hd] at htxnid
      cases htxnid
    | some d =>
      obtain ⟨tid, htid⟩ := splitBy_document (h.document _ d hkey hd)
      rw [hd, Option.getD_some, htid] at htxnid
      exact ⟨tid, (Except.ok.inj htxnid).symm⟩
  -- and the record of its transaction is an entry
  cases hv : t.ledger.db.getString (txnKey tid) with
  | none =>
    rw [hv] at hfield
    cases hfield
  | some v =>
    obtain ⟨b', i, docs, rfl, hdocs⟩ := h.entry tid v hv
    exact ⟨b', i, tid, docs, rfl, hdocs⟩

/-- `Verify` asks for the root in the entry of the transaction. -/
theorem root_of_verify {p : DetailProof} {hash : Bytes} {b i : ℕ} {txn : Txn}
    (hvalue : p.txnProof.value = txnEntry H b i txn) (h : p.verify H hash = .ok true) :
    hash = (rootOf H txn.2).2 := by
  rw [DetailProof.verify] at h
  simp only at h
  split_ifs at h with hdigest
  · cases h
  obtain ⟨verified, -, h⟩ := bind_eq_ok_iff.mp h
  split_ifs at h
  · cases h
  rw [hvalue, splitBy_txnEntry] at h
  obtain ⟨root, hroot, h⟩ := bind_eq_ok_iff.mp h
  split_ifs at h with heq
  · cases h
  · rw [not_ne_iff] at hdigest heq
    rw [hdigest, ← heq]
    exact (Except.ok.inj hroot).symm

/-- The leaves of the tree of a transaction are not those of the tree of a block. -/
theorem documents_ne_entries {docs : List Bytes} (hne : docs ≠ []) (hdocs : ∀ d ∈ docs, IsDocument d)
    (b : Block) : docs ≠ txnEntries H b := by
  intro heq
  obtain ⟨d, hd⟩ := List.exists_mem_of_ne_nil docs hne
  have hentry := hd
  rw [heq, txnEntries, List.mem_mapIdx] at hentry
  obtain ⟨i, hi, hentry⟩ := hentry
  exact (hdocs d hd).ne_txnEntry b.1 i b.2[i] hentry.symm

/-- **No document is proved** against the root of a block: `Verify` returns `true` only if two strings
that are hashed for the block and for the transaction have the same hash, or if a document or an entry
is an inner node of the other tree. -/
theorem not_verify_detailProof {steps : List Step}
    (hrun : Run.runs (observed H cfg) (start, []) steps = some (t, taken)) {b : Block}
    (hb : b ∈ taken) {key : Bytes} (hkey : ¬ IsInternal (histKey key b.1)) {level : ℤ}
    {p : DetailProof} (hp : t.ledger.getDetailProof key b.1 level = .ok p) :
    ∃ b' i tid docs, p.txnProof.value = txnEntry H b' i (tid, docs) ∧
      (p.verify H (merkleRoot H ((txnEntries H b).map H)).toBase32 = .ok true →
        Collision H (hashed H docs ++ hashed H (txnEntries H b)) ∨
          (∃ d ∈ docs, d ∈ treeNodes H ((txnEntries H b).map H)) ∨
          ∃ e ∈ txnEntries H b, e ∈ treeNodes H (docs.map H)) := by
  have hrecorded := Recorded.runs hrun
  have hstored : Stored H t := Stored.runs hrun
  obtain ⟨b', i, tid, docs, hvalue, hdocs⟩ := hstored.of_getDetailProof hkey hp
  refine ⟨b', i, tid, docs, hvalue, fun hverify => ?_⟩
  by_contra hnot
  rw [not_or, not_or] at hnot
  obtain ⟨hcol, hdoc, hentry⟩ := hnot
  have hroot := root_of_verify hvalue hverify
  rw [rootOf] at hroot
  split_ifs at hroot with hnil
  · have hlength := congrArg List.length hroot
    rw [Hash.length_toBase32] at hlength
    cases hlength
  have hentries : txnEntries H b ≠ [] := by
    rw [← List.length_pos_iff, length_txnEntries]
    exact List.length_pos_iff.mpr (hrecorded.nonempty b hb)
  have hroots := Hash.toBase32_injective hroot
  have hinj := injOn_of_not_collision hcol
  have hS : ∀ s ∈ hashed H docs, s ∈ hashed H docs ++ hashed H (txnEntries H b) :=
    fun s hs => List.mem_append_left _ hs
  have hS' : ∀ s ∈ hashed H (txnEntries H b), s ∈ hashed H docs ++ hashed H (txnEntries H b) :=
    fun s hs => List.mem_append_right _ hs
  obtain ⟨d, hd⟩ := List.exists_mem_of_ne_nil docs hnil
  obtain ⟨e, he⟩ := List.exists_mem_of_ne_nil _ hentries
  rcases Nat.le_total (height (docs.map H)) (height ((txnEntries H b).map H)) with hle | hle
  · rcases leaves_of_merkleRoot_eq hinj hS hS' hnil hentries hle hroots.symm with
      ⟨-, heq⟩ | ⟨-, hnodes⟩
    · exact documents_ne_entries hnil hdocs b heq
    · exact hdoc ⟨d, hd, hnodes d hd⟩
  · rcases leaves_of_merkleRoot_eq hinj hS' hS hentries hnil hle hroots with
      ⟨-, heq⟩ | ⟨-, hnodes⟩
    · exact documents_ne_entries hnil hdocs b heq.symm
    · exact hentry ⟨e, he, hnodes e he⟩

/-- The only document of an honest run. -/
theorem not_verify_detailProof_oneBlock : ∃ t taken b p,
    Run.runs (observed firstBytes {}) (start, []) oneBlock = some (t, taken) ∧ b ∈ taken ∧
      t.ledger.getDetailProof (str "a") b.1 0 = .ok p ∧
      ∃ b' i tid docs, p.txnProof.value = txnEntry firstBytes b' i (tid, docs) ∧
        (p.verify firstBytes (merkleRoot firstBytes
            ((txnEntries firstBytes b).map firstBytes)).toBase32 = .ok true →
          Collision firstBytes (hashed firstBytes docs ++ hashed firstBytes (txnEntries firstBytes b)) ∨
            (∃ d ∈ docs, d ∈ treeNodes firstBytes ((txnEntries firstBytes b).map firstBytes)) ∨
            ∃ e ∈ txnEntries firstBytes b, e ∈ treeNodes firstBytes (docs.map firstBytes)) := by
  have hrun : (Run.runs (observed firstBytes {}) (start, []) oneBlock).any (fun s =>
      s.2.any fun b => (s.1.ledger.getDetailProof (str "a") b.1 0).toOption.isSome) = true := by
    decide +kernel
  obtain ⟨⟨t, taken⟩, hs, htaken⟩ := (Option.any_eq_true _ _).mp hrun
  obtain ⟨b, hb, hproof⟩ := List.any_eq_true.mp htaken
  obtain ⟨p, hp⟩ := Option.isSome_iff_exists.mp hproof
  have hkey : ¬ IsInternal (histKey (str "a") b.1) := fun h =>
    reserved_a _ h (List.prefix_append _ _)
  exact ⟨t, taken, b, p, hs, hb, eq_ok_of_toOption hp,
    not_verify_detailProof hs hb hkey (eq_ok_of_toOption hp)⟩

/-- The proof of its block is accepted with the root of the block, and its own proof is not. -/
theorem detailProof_fails : ∃ t taken blocks p hash root,
    Run.runs (observed firstBytes {}) (start, []) oneBlock = some (t, taken) ∧
      Run.Along (observed firstBytes {}) Quiet (start, []) oneBlock ∧
      t.ledger.getDigest = .ok (0, hash) ∧
      t.ledger.getBlockProof 0 0 = .ok (blocks, some 0) ∧
      blocks.verify firstBytes hash [] = .ok (true, root) ∧
      t.ledger.getDetailProof (str "a") 0 0 = .ok p ∧ p.verify firstBytes root = .ok false := by
  have hrun : (Run.runs (observed firstBytes {}) (start, []) oneBlock).any (fun s =>
      s.1.ledger.getDigest.toOption.any fun digest =>
      (s.1.ledger.getBlockProof 0 0).toOption.any fun blocks =>
      (blocks.1.verify firstBytes digest.2 []).toOption.any fun verified =>
      (s.1.ledger.getDetailProof (str "a") 0 0).toOption.any fun p =>
        digest.1 = 0 ∧ blocks.2 = some 0 ∧ verified.1 = true ∧
          (p.verify firstBytes verified.2).toOption = some false) = true := by
    decide +kernel
  have hquiet : Run.Along (observed firstBytes {}) Quiet (start, []) oneBlock := by decide +kernel
  obtain ⟨⟨t, taken⟩, hs, hrun⟩ := (Option.any_eq_true _ _).mp hrun
  obtain ⟨⟨tip, hash⟩, hdigest, hrun⟩ := (Option.any_eq_true _ _).mp hrun
  obtain ⟨⟨blocks, level⟩, hblocks, hrun⟩ := (Option.any_eq_true _ _).mp hrun
  obtain ⟨⟨result, root⟩, hverify, hrun⟩ := (Option.any_eq_true _ _).mp hrun
  obtain ⟨p, hp, hrun⟩ := (Option.any_eq_true _ _).mp hrun
  obtain ⟨rfl, rfl, rfl, hfalse⟩ := of_decide_eq_true hrun
  exact ⟨t, taken, blocks, p, hash, root, hs, hquiet, eq_ok_of_toOption hdigest,
    eq_ok_of_toOption hblocks, eq_ok_of_toOption hverify, eq_ok_of_toOption hp,
    eq_ok_of_toOption hfalse⟩

end LedgerDatabase.Sqlledger
