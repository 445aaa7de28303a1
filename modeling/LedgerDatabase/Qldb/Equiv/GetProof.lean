import LedgerDatabase.Qldb.Equiv.BTree.Get
import LedgerDatabase.Qldb.Equiv.BlockHash

/-!
# The bound check of `getProof`

`getProof` compares the number of a document with the last index of the tree over the block, and that
tree has three leaves after the documents.  So a number from the count of the documents up to two above
it passes the check and is then used to index the documents (`getProof_bounded_iff`).
-/

namespace LedgerDatabase.Qldb.QLDB

variable {q : QLDB} {name : Bytes} {tip blockAddr docSeq : ℕ}

/-- The loop ends: the last index is at least halved in each round. -/
theorem siblings_ok (db : DB) (nodeKey : (level i : ℕ) → Bytes) : ∀ (fuel level currSeq last : ℕ),
    last < fuel → ∃ r, siblings db nodeKey fuel level currSeq last = .ok r := by
  intro fuel
  induction fuel with
  | zero =>
    intro level currSeq last h
    exact absurd h (Nat.not_lt_zero _)
  | succ fuel ih =>
    intro level currSeq last h
    rw [siblings]
    split
    · rename_i hlast
      have hhalf : last / 2 < fuel := by
        have := Nat.div_lt_self hlast one_lt_two
        omega
      obtain ⟨r, hr⟩ := ih (level + 1) (currSeq / 2) (last / 2) hhalf
      simp only [hr, ok_bind]
      exact ⟨_, rfl⟩
    · exact ⟨([], []), rfl⟩

/-- Block `blockAddr` has the document `d` at position `docSeq`. -/
def HasDocument (q : QLDB) (name : Bytes) (blockAddr docSeq : ℕ) (d : Bytes) : Prop :=
  ∃ c, q.db.chunkAt (blockKey name blockAddr) = some c ∧ (QLBlock.ofChunk c).documents[docSeq]? = some d

/-- `getProof` returns the empty result where there is no such document, and otherwise reads the
document. -/
structure Bounded (q : QLDB) (name : Bytes) (tip blockAddr docSeq : ℕ) : Prop where
  empty : (tip < blockAddr ∨ ∀ d, ¬ HasDocument q name blockAddr docSeq d) →
    ∃ q', q.getProof name tip blockAddr docSeq = .ok ({}, q')
  reads : ∀ d, blockAddr ≤ tip → HasDocument q name blockAddr docSeq d →
    ∃ r q', q.getProof name tip blockAddr docSeq = .ok (r, q') ∧
      r.data = (Document.ofChunk d).data ∧ r.addr = (Document.ofChunk d).addr ∧
      r.metadata = (Document.ofChunk d).metadata

/-- A block after the tip. -/
theorem getProof_of_lt (h : tip < blockAddr) :
    q.getProof name tip blockAddr docSeq = .ok ({}, q) := by
  rw [getProof, if_pos h]

/-- There is no such block: the null chunk is read. -/
theorem getProof_of_none (hle : blockAddr ≤ tip)
    (hnone : q.db.chunkAt (blockKey name blockAddr) = none) :
    q.getProof name tip blockAddr docSeq = .error .nullChunk := by
  rw [getProof, if_neg hle.not_gt, DB.getChunk_eq, hnone]
  rfl

section Stored

variable {c : Bytes} (hle : blockAddr ≤ tip) (hc : q.db.chunkAt (blockKey name blockAddr) = some c)

include hle hc

/-- The number passes the check, and there is no such document. -/
theorem getProof_outOfRange (hlo : (QLBlock.ofChunk c).documents.length ≤ docSeq)
    (hhi : docSeq ≤ (QLBlock.ofChunk c).documents.length + 2) :
    q.getProof name tip blockAddr docSeq = .error .outOfRange := by
  have hread : (QLBlock.ofChunk c).getDocumentBySeq docSeq = .error .outOfRange := by
    rw [QLBlock.getDocumentBySeq, at?, List.getElem?_eq_none hlo]
  rw [getProof, if_neg hle.not_gt, DB.getChunk_eq, hc]
  simp only [deref, ok_bind]
  rw [if_neg (show ¬ (QLBlock.ofChunk c).getDocumentSize + 2 < docSeq from hhi.not_gt)]
  simp only [hread]
  rfl

/-- The number does not pass the check. -/
theorem getProof_of_check (hhi : (QLBlock.ofChunk c).documents.length + 2 < docSeq) :
    ∃ q', q.getProof name tip blockAddr docSeq = .ok ({}, q') := by
  rw [getProof, if_neg hle.not_gt, DB.getChunk_eq, hc]
  simp only [deref, ok_bind]
  rw [if_pos (show (QLBlock.ofChunk c).getDocumentSize + 2 < docSeq from hhi)]
  exact ⟨_, rfl⟩

/-- The proof of a document. -/
theorem getProof_of_document {d : Bytes} (hd : (QLBlock.ofChunk c).documents[docSeq]? = some d) :
    ∃ r q', q.getProof name tip blockAddr docSeq = .ok (r, q') ∧
      r.data = (Document.ofChunk d).data ∧ r.addr = (Document.ofChunk d).addr ∧
      r.metadata = (Document.ofChunk d).metadata := by
  have hlt : docSeq < (QLBlock.ofChunk c).documents.length := (List.getElem?_eq_some_iff.mp hd).1
  have hread : (QLBlock.ofChunk c).getDocumentBySeq docSeq = .ok d := by
    rw [QLBlock.getDocumentBySeq, at?, hd]
  obtain ⟨r, hr⟩ := siblings_ok (q.db.getChunk (blockKey name blockAddr)).2
    (blockNodeKey name blockAddr) ((QLBlock.ofChunk c).getDocumentSize + 2 + 1) 0 docSeq
    ((QLBlock.ofChunk c).getDocumentSize + 2) (Nat.lt_succ_self _)
  obtain ⟨r', hr'⟩ := siblings_ok (q.db.getChunk (blockKey name blockAddr)).2 (digestNodeKey name)
    (tip + 1) 0 blockAddr tip (Nat.lt_succ_self _)
  rw [getProof, if_neg hle.not_gt, DB.getChunk_eq, hc]
  simp only [deref, ok_bind]
  rw [if_neg (show ¬ (QLBlock.ofChunk c).getDocumentSize + 2 < docSeq from by
    rw [QLBlock.getDocumentSize]
    omega)]
  simp only [hread, ok_bind, hr, hr']
  exact ⟨_, _, rfl, rfl, rfl, rfl⟩

end Stored

/-- **`getProof` keeps to the documents of the block** exactly where the number is below their count
or more than two above it. -/
theorem getProof_bounded_iff : Bounded q name tip blockAddr docSeq ↔
    tip < blockAddr ∨ ∃ c, q.db.chunkAt (blockKey name blockAddr) = some c ∧
      (docSeq < (QLBlock.ofChunk c).documents.length ∨
        (QLBlock.ofChunk c).documents.length + 2 < docSeq) := by
  constructor
  · intro h
    by_contra hno
    push Not at hno
    obtain ⟨hle, hno⟩ := hno
    cases hc : q.db.chunkAt (blockKey name blockAddr) with
    | none =>
      obtain ⟨q', hok⟩ := h.empty (Or.inr fun d ⟨c, hsome, _⟩ => by rw [hc] at hsome; cases hsome)
      rw [getProof_of_none hle hc] at hok
      cases hok
    | some c =>
      obtain ⟨hlo, hhi⟩ := hno c hc
      have hnone : ∀ d, ¬ HasDocument q name blockAddr docSeq d := by
        rintro d ⟨c', hc', hd⟩
        obtain rfl : c = c' := Option.some.inj (hc.symm.trans hc')
        rw [List.getElem?_eq_none hlo] at hd
        cases hd
      obtain ⟨q', hok⟩ := h.empty (Or.inr hnone)
      rw [getProof_outOfRange hle hc hlo hhi] at hok
      cases hok
  · rintro (hlt | ⟨c, hc, hseq⟩)
    · exact ⟨fun _ => ⟨q, getProof_of_lt hlt⟩, fun d hle => absurd hlt hle.not_gt⟩
    · constructor
      · intro hno
        by_cases hle : blockAddr ≤ tip
        · apply getProof_of_check hle hc
          refine hseq.resolve_left fun hlt => ?_
          exact hno.resolve_left hle.not_gt _ ⟨c, hc, List.getElem?_eq_getElem hlt⟩
        · exact ⟨q, getProof_of_lt (not_le.mp hle)⟩
      · rintro d hle ⟨c', hc', hd⟩
        obtain rfl : c = c' := Option.some.inj (hc.symm.trans hc')
        exact getProof_of_document hle hc hd

/-- After one call with one document, the block has no document number one. -/
theorem getProof_reads_past_documents :
    ∃ q', emptyLedger.set (Hash.ofTable []) {} (str "test") [str "k"] [str "v"] (envA 0)
        = .ok (true, q') ∧
      (q'.digest (str "test")).map DigestInfo.tip = .ok 0 ∧
      ¬ Bounded q' (str "test") 0 0 1 := by
  have hrun : ((emptyLedger.set (Hash.ofTable []) {} (str "test") [str "k"] [str "v"]
        (envA 0)).map fun r => (r.1, (r.2.digest (str "test")).map DigestInfo.tip,
          (r.2.db.chunkAt (blockKey (str "test") 0)).map fun c =>
            (QLBlock.ofChunk c).documents.length)) = .ok (true, .ok 0, some 1) := by
    decide +kernel
  cases hset : emptyLedger.set (Hash.ofTable []) {} (str "test") [str "k"] [str "v"] (envA 0) with
  | error e =>
    rw [hset] at hrun
    cases hrun
  | ok r =>
    obtain ⟨b, q'⟩ := r
    rw [hset] at hrun
    obtain ⟨hb, hrun⟩ := Prod.mk.inj (Except.ok.inj hrun)
    obtain ⟨htip, hdocs⟩ := Prod.mk.inj hrun
    obtain rfl : b = true := hb
    refine ⟨q', rfl, htip, fun hbounded => ?_⟩
    obtain ⟨c, hc, hlen⟩ := Option.map_eq_some_iff.mp hdocs
    have hnone : ∀ d, ¬ HasDocument q' (str "test") 0 1 d := by
      rintro d ⟨c', hc', hd⟩
      obtain rfl : c = c' := Option.some.inj (hc.symm.trans hc')
      rw [List.getElem?_eq_none hlen.le] at hd
      cases hd
    obtain ⟨q'', hok⟩ := hbounded.empty (Or.inr hnone)
    rw [getProof_outOfRange (le_refl 0) hc hlen.le (by omega)] at hok
    cases hok

/-! ### The sides of a path -/

theorem siblings_pos_le {db : DB} {nodeKey : (level i : ℕ) → Bytes} :
    ∀ {fuel level currSeq last : ℕ} {r : List Bytes × List ℕ},
      siblings db nodeKey fuel level currSeq last = .ok r → ∀ p ∈ r.2, p ≤ 1 := by
  intro fuel
  induction fuel with
  | zero =>
    intro level currSeq last r h
    cases h
  | succ fuel ih =>
    intro level currSeq last r h
    rw [siblings] at h
    by_cases hlast : 0 < last
    · rw [if_pos hlast] at h
      obtain ⟨⟨proof, pos⟩, hrest, h⟩ := bind_eq_ok_iff.mp h
      obtain rfl := Except.ok.inj h
      intro p hp
      rcases List.mem_cons.mp hp with rfl | hp
      · exact Nat.sub_le ..
      · exact ih hrest p hp
    · rw [if_neg hlast] at h
      obtain rfl := Except.ok.inj h
      exact fun p hp => absurd hp List.not_mem_nil

theorem getProof_pos_le {name : Bytes} {tip blockAddr docSeq : ℕ} {r : QLProofResult}
    (h : q.getProof name tip blockAddr docSeq = .ok (r, q')) : ∀ p ∈ r.pos, p ≤ 1 := by
  rw [getProof] at h
  by_cases hlt : tip < blockAddr
  · rw [if_pos hlt] at h
    obtain ⟨rfl, -⟩ := Prod.mk.inj (Except.ok.inj h)
    exact fun p hp => absurd hp List.not_mem_nil
  · rw [if_neg hlt] at h
    dsimp only at h
    obtain ⟨block, -, h⟩ := bind_eq_ok_iff.mp h
    split_ifs at h
    · obtain ⟨rfl, -⟩ := Prod.mk.inj (Except.ok.inj h)
      exact fun p hp => absurd hp List.not_mem_nil
    · obtain ⟨doc, -, h⟩ := bind_eq_ok_iff.mp h
      obtain ⟨s, hs, h⟩ := bind_eq_ok_iff.mp h
      obtain ⟨s', hs', h⟩ := bind_eq_ok_iff.mp h
      obtain ⟨rfl, -⟩ := Prod.mk.inj (Except.ok.inj h)
      intro p hp
      rcases List.mem_append.mp hp with hp | hp
      · exact siblings_pos_le hs p hp
      · exact siblings_pos_le hs' p hp

/-! ### Reading changes no answer -/

theorem siblings_congr {db db' : DB} (h : db.rocks = db'.rocks) (nodeKey : (level i : ℕ) → Bytes) :
    siblings db nodeKey = siblings db' nodeKey := by
  funext fuel
  induction fuel with
  | zero => rfl
  | succ fuel ih =>
    funext level currSeq last
    rw [siblings, siblings, ih]
    simp only [DB.getString, h]

/-- The same documents are found in stores that answer alike. -/
theorem getCommitted_congr {q q' q₁ : QLDB} {key : Bytes} {r : Option Bytes}
    (hindexed : q.indexed = q'.indexed) (hsame : q.db.SameAnswers q'.db)
    (h : q.getCommitted name key = .ok (r, q₁)) :
    (∃ q₁', q'.getCommitted name key = .ok (r, q₁')) ∧
      q.indexed = q₁.indexed ∧ q.db.SameAnswers q₁.db := by
  obtain ⟨⟨r', db₁⟩, hget, h⟩ := bind_eq_ok_iff.mp h
  obtain ⟨rfl, rfl⟩ := Prod.mk.inj (Except.ok.inj h)
  refine ⟨?_, rfl, QLBTree.tryGet_sameAnswers hget⟩
  obtain ⟨db₁', hget', -⟩ := QLBTree.tryGet_congr hsame hget
  rw [getCommitted, ← hindexed, QLBTree.get, hget']
  exact ⟨_, rfl⟩

/-- The same proofs are found in stores that answer alike. -/
theorem getProof_congr {q q' q₁ : QLDB} {r : QLProofResult} (hsame : q.db.SameAnswers q'.db)
    (h : q.getProof name tip blockAddr docSeq = .ok (r, q₁)) :
    (∃ q₁', q'.getProof name tip blockAddr docSeq = .ok (r, q₁')) ∧
      q.indexed = q₁.indexed ∧ q.db.SameAnswers q₁.db := by
  rw [getProof] at h ⊢
  by_cases hlt : tip < blockAddr
  · rw [if_pos hlt] at h ⊢
    obtain ⟨rfl, rfl⟩ := Prod.mk.inj (Except.ok.inj h)
    exact ⟨⟨_, rfl⟩, rfl, DB.SameAnswers.refl _⟩
  · rw [if_neg hlt] at h ⊢
    obtain ⟨hchunk, hsame'⟩ := hsame.getChunk_congr (blockKey name blockAddr)
    have hstep := DB.SameAnswers.getChunk q.db (blockKey name blockAddr)
    dsimp only at h ⊢
    obtain ⟨block, hblock, h⟩ := bind_eq_ok_iff.mp h
    rw [← hchunk, hblock, ok_bind]
    by_cases hsize : (QLBlock.ofChunk block).getDocumentSize + 2 < docSeq
    · rw [if_pos hsize] at h ⊢
      obtain ⟨rfl, rfl⟩ := Prod.mk.inj (Except.ok.inj h)
      exact ⟨⟨_, rfl⟩, rfl, hstep⟩
    · rw [if_neg hsize] at h ⊢
      obtain ⟨doc, hdoc, h⟩ := bind_eq_ok_iff.mp h
      obtain ⟨⟨proof, pos⟩, hproof, h⟩ := bind_eq_ok_iff.mp h
      obtain ⟨⟨proof', pos'⟩, hproof', h⟩ := bind_eq_ok_iff.mp h
      obtain ⟨rfl, rfl⟩ := Prod.mk.inj (Except.ok.inj h)
      refine ⟨⟨{ q' with db := (q'.db.getChunk (blockKey name blockAddr)).2 }, ?_⟩, rfl, hstep⟩
      rw [hdoc, ok_bind, ← siblings_congr hsame'.rocks.symm, hproof, ok_bind,
        ← siblings_congr hsame'.rocks.symm, hproof', ok_bind]
      rfl

end LedgerDatabase.Qldb.QLDB
