import LedgerDatabase.Common.Equiv.Bytes
import LedgerDatabase.Common.Equiv.Hash
import LedgerDatabase.Ledgerdb.LedgerDB

/-!
# What `Audit` accepts

`audit_eq_true_iff`: `Audit` returns `true` when the commits are linked by their hashes
(`Linked`), nothing that it parses throws, and the recomputed root is the root of the oldest commit
**or** one of the trie proofs is accepted (`res || VerifyProof(..)`), where the trie proofs are
checked under the hash of the text `mptroot` (`Hash::ComputeFrom` in the place of
`Hash::FromBase32`).  So the root and the trie proofs need not both be right; `audit_sound_iff` says
for which audits they are.
-/

namespace LedgerDatabase.Ledgerdb.Auditor

section

variable (H : Bytes → Hash)

/-- Every commit has the hash that the next one names, and the last one has the hash `digest`. -/
structure Linked (digest : Bytes) (commits : List Bytes) : Prop where
  chain : commits.IsChain fun c next =>
    ∃ info, CommitInfo.ofString next = .ok info ∧ (H c).toBase32 = info.prevDigest
  last : ∀ c ∈ commits.getLast?, (H c).toBase32 = digest

/-- What the loop keeps of a commit. -/
def Oldest.ofInfo (info : CommitInfo) : Oldest where
  mtroot := info.mtroot
  mptroot := info.mptroot
  prevCommitSeq := MerkleTree.prevCommitSeq info.commitSeq

/-- What the loop keeps of the oldest commit when the commits are linked. -/
def oldestOf (a : Auditor) : Oldest :=
  match a.commits.head? with
  | none => {}
  | some c =>
    match CommitInfo.ofString c with
    | .ok info => .ofInfo info
    | .error _ => {}

/-- The keys of the blocks, as `BlockData` parses them. -/
def blockKeys (blocks : List Bytes) : Except Fault (List Bytes) := do
  return (← blocks.mapM BlockData.ofString).flatMap (·.keys)

/-- `VerifyProof` accepts one of the proofs for a key. -/
def Covered (a : Auditor) (mptHash : Hash) (key : Bytes) : Prop :=
  ∃ p ∈ a.mptproofs, p.verifyProof H mptHash key = .ok true

/-- Paired with the keys in order, some proof is accepted, and those before it are rejected. -/
def SomeAccepted (mptHash : Hash) : List Bytes → List MPTProof → Prop
  | key :: keys, p :: proofs => p.verifyProof H mptHash key = .ok true ∨
      (p.verifyProof H mptHash key = .ok false ∧ SomeAccepted mptHash keys proofs)
  | _, _ => False

/-- The audits that do not show the slips of `Audit`: when the commits are linked and everything can
be parsed, the blocks have the right root and every key has a proof in the list, or they have
another root and no proof is accepted under the hash of the text `mptroot`. -/
def Consistent (a : Auditor) (db : DB) : Prop :=
  Linked H a.digest a.commits → (∀ c ∈ a.commits, ∃ info, CommitInfo.ofString c = .ok info) →
    ∀ keys root db', blockKeys a.blocks = .ok keys →
      MerkleTree.update H db a.firstBlockSeq (a.blocks.map fun b => (H b).toBase32)
        (oldestOf a).prevCommitSeq = .ok (root, db') →
      if root.rootHash = (oldestOf a).mtroot then
        ∀ key ∈ keys, Covered H a (Hash.fromBase32 (oldestOf a).mptroot) key
      else ¬ SomeAccepted H (H (oldestOf a).mptroot) keys a.mptproofs

end

variable {H : Bytes → Hash}

/-! ### The commits -/

/-- **The loop over the commits**, newest first. -/
theorem walkCommits_eq_some_iff (target : Bytes) (commits : List Bytes) (start oldest : Oldest) :
    walkCommits H target commits start = .ok (some oldest) ↔
      (∀ c ∈ commits.head?, (H c).toBase32 = target) ∧
      (commits.IsChain fun c older =>
        ∃ info, CommitInfo.ofString c = .ok info ∧ (H older).toBase32 = info.prevDigest) ∧
      (∀ c ∈ commits, ∃ info, CommitInfo.ofString c = .ok info) ∧
      (commits = [] → oldest = start) ∧
      (∀ c ∈ commits.getLast?, ∃ info, CommitInfo.ofString c = .ok info ∧ oldest = .ofInfo info) := by
  induction commits generalizing target start with
  | nil => simp [walkCommits, pure, Except.pure, eq_comm]
  | cons c commits ih =>
    rw [walkCommits]
    by_cases hhash : (H c).toBase32 = target
    · rw [if_neg (not_not.mpr hhash)]
      cases hparse : CommitInfo.ofString c with
      | error e => simp [error_bind, hparse]
      | ok info =>
        rw [ok_bind, ih]
        cases commits with
        | nil => simp [hhash, hparse, Oldest.ofInfo]
        | cons d commits => simp [hhash, hparse, List.isChain_cons_cons, and_assoc]
    · rw [if_pos hhash]
      simp [pure, Except.pure, hhash]

/-- The commits of an audit pass when they are linked and can be parsed. -/
theorem walkCommits_reverse_iff (a : Auditor) (oldest : Oldest) :
    walkCommits H a.digest a.commits.reverse {} = .ok (some oldest) ↔
      Linked H a.digest a.commits ∧ (∀ c ∈ a.commits, ∃ info, CommitInfo.ofString c = .ok info) ∧
        oldest = oldestOf a := by
  rw [walkCommits_eq_some_iff, List.isChain_reverse, List.head?_reverse, List.getLast?_reverse,
    oldestOf]
  simp only [List.mem_reverse, List.reverse_eq_nil_iff]
  have holdest : (∀ c ∈ a.commits, ∃ info, CommitInfo.ofString c = .ok info) →
      (((a.commits = [] → oldest = {}) ∧ ∀ c ∈ a.commits.head?, ∃ info,
        CommitInfo.ofString c = .ok info ∧ oldest = .ofInfo info) ↔ oldest = oldestOf a) := by
    intro hparse
    rw [oldestOf]
    cases hc : a.commits with
    | nil => simp
    | cons c commits =>
      obtain ⟨info, hinfo⟩ := hparse c (by rw [hc]; exact List.mem_cons_self)
      simp [hinfo]
  constructor
  · rintro ⟨hlast, hchain, hparse, hrest⟩
    exact ⟨⟨hchain, hlast⟩, hparse, (holdest hparse).mp hrest⟩
  · rintro ⟨⟨hchain, hlast⟩, hparse, hrest⟩
    exact ⟨hlast, hchain, hparse, (holdest hparse).mpr hrest⟩

/-! ### The trie proofs -/

/-- A result that is `true` stays so. -/
theorem auditKeys_true (proofs : List MPTProof) (mptHash : Hash) (keys : List Bytes) (cnt : ℕ) :
    auditKeys H proofs mptHash keys true cnt = .ok (true, cnt + keys.length) := by
  induction keys generalizing cnt with
  | nil => rfl
  | cons key keys ih =>
    rw [auditKeys, ih, List.length_cons]
    congr 2
    omega

/-- The loop over the keys of a block, when everything before was rejected: some proof is accepted,
or all are rejected and the next block goes on behind them. -/
theorem someAccepted_append_iff (proofs : List MPTProof) (mptHash : Hash) (keys rest : List Bytes)
    (cnt : ℕ) :
    SomeAccepted H mptHash (keys ++ rest) (proofs.drop cnt) ↔
      auditKeys H proofs mptHash keys false cnt = .ok (true, cnt + keys.length) ∨
      (auditKeys H proofs mptHash keys false cnt = .ok (false, cnt + keys.length) ∧
        SomeAccepted H mptHash rest (proofs.drop (cnt + keys.length))) := by
  induction keys generalizing cnt with
  | nil => simp [auditKeys, pure, Except.pure]
  | cons key keys ih =>
    rw [auditKeys, at?, List.cons_append, List.length_cons,
      show cnt + (keys.length + 1) = cnt + 1 + keys.length by omega]
    cases hget : proofs[cnt]? with
    | none =>
      rw [List.drop_eq_nil_of_le (List.getElem?_eq_none_iff.mp hget)]
      simp [SomeAccepted, error_bind]
    | some p =>
      obtain ⟨hlt, rfl⟩ := List.getElem?_eq_some_iff.mp hget
      rw [List.drop_eq_getElem_cons hlt, SomeAccepted, ih, ok_bind]
      cases proofs[cnt].verifyProof H mptHash key with
      | error e => simp [error_bind]
      | ok ok =>
        rw [ok_bind]
        cases ok with
        | true => simp [auditKeys_true]
        | false => simp

/-- The loop ends behind the keys. -/
theorem auditKeys_snd {proofs : List MPTProof} {mptHash : Hash} {keys : List Bytes} {res res' : Bool}
    {cnt cnt' : ℕ} (h : auditKeys H proofs mptHash keys res cnt = .ok (res', cnt')) :
    cnt' = cnt + keys.length := by
  induction keys generalizing res cnt with
  | nil => exact (Prod.mk.inj (Except.ok.inj h)).2.symm
  | cons key keys ih =>
    cases res with
    | true =>
      rw [auditKeys_true] at h
      exact (Prod.mk.inj (Except.ok.inj h)).2.symm
    | false =>
      rw [auditKeys] at h
      cases hp : at? proofs cnt with
      | error e => simp [hp, error_bind] at h
      | ok p =>
        rw [hp, ok_bind] at h
        cases hv : p.verifyProof H mptHash key with
        | error e => simp [hv, error_bind] at h
        | ok ok =>
          rw [hv, ok_bind] at h
          rw [ih h, List.length_cons]
          omega

theorem blockKeys_cons (block : Bytes) (blocks : List Bytes) :
    blockKeys (block :: blocks) = do
      let binfo ← BlockData.ofString block
      let keys ← blockKeys blocks
      return binfo.keys ++ keys := by
  simp only [blockKeys, List.mapM_cons, bind_assoc, pure_bind, List.flatMap_cons]

/-- **The loop over the blocks** ends with `true` when it started with it or some proof is
accepted. -/
theorem auditBlocks_eq_true_iff (proofs : List MPTProof) (mptHash : Hash) (blocks : List Bytes)
    (res : Bool) (cnt : ℕ) :
    auditBlocks H proofs mptHash blocks res cnt = .ok true ↔
      ∃ keys, blockKeys blocks = .ok keys ∧
        (res = true ∨ SomeAccepted H mptHash keys (proofs.drop cnt)) := by
  induction blocks generalizing res cnt with
  | nil =>
    have hnil : blockKeys [] = .ok [] := rfl
    simp [auditBlocks, hnil, pure, Except.pure, SomeAccepted]
  | cons block blocks ih =>
    rw [auditBlocks, blockKeys_cons]
    cases BlockData.ofString block with
    | error e => simp [error_bind]
    | ok binfo =>
      rw [ok_bind, ok_bind]
      have hsplit : ∀ keys, SomeAccepted H mptHash (binfo.keys ++ keys) (proofs.drop cnt) ↔ _ :=
        fun keys => someAccepted_append_iff proofs mptHash binfo.keys keys cnt
      have hkeys : (∃ keys, (do let ks ← blockKeys blocks; pure (binfo.keys ++ ks)) = .ok keys ∧
          (res = true ∨ SomeAccepted H mptHash keys (proofs.drop cnt))) ↔
          ∃ keys, blockKeys blocks = .ok keys ∧
            (res = true ∨ SomeAccepted H mptHash (binfo.keys ++ keys) (proofs.drop cnt)) := by
        cases blockKeys blocks <;> simp [pure, Except.pure, ok_bind, error_bind]
      rw [hkeys]
      simp only [hsplit]
      cases res with
      | true => simp [auditKeys_true, ok_bind, ih]
      | false =>
        cases hloop : auditKeys H proofs mptHash binfo.keys false cnt with
        | error e => simp [error_bind]
        | ok r =>
          obtain ⟨res', cnt'⟩ := r
          obtain rfl := auditKeys_snd hloop
          cases res' <;> simp [ok_bind, ih]

/-- **`Audit` returns `true`** for linked commits, when the recomputed root is right or some trie
proof is accepted. -/
theorem audit_eq_true_iff (a : Auditor) (db : DB) :
    (∃ db', audit H a db = .ok (true, db')) ↔
      ∃ oldest root db' keys, walkCommits H a.digest a.commits.reverse {} = .ok (some oldest) ∧
        MerkleTree.update H db a.firstBlockSeq (a.blocks.map fun b => (H b).toBase32)
          oldest.prevCommitSeq = .ok (root, db') ∧
        blockKeys a.blocks = .ok keys ∧
        (root.rootHash = oldest.mtroot ∨ SomeAccepted H (H oldest.mptroot) keys a.mptproofs) := by
  unfold audit
  simp only [bind_eq_ok_iff]
  constructor
  · rintro ⟨db', walked, hwalk, h⟩
    cases walked with
    | none => cases h
    | some oldest =>
      obtain ⟨⟨root, db''⟩, hupdate, h⟩ := bind_eq_ok_iff.mp h
      obtain ⟨res, hblocks, h⟩ := bind_eq_ok_iff.mp h
      obtain ⟨rfl, rfl⟩ := Prod.mk.inj (Except.ok.inj h)
      obtain ⟨keys, hkeys, hres⟩ := (auditBlocks_eq_true_iff ..).mp hblocks
      refine ⟨oldest, root, db'', keys, hwalk, hupdate, hkeys, ?_⟩
      rwa [beq_iff_eq, List.drop_zero] at hres
  · rintro ⟨oldest, root, db', keys, hwalk, hupdate, hkeys, hres⟩
    have hblocks : auditBlocks H a.mptproofs (H oldest.mptroot) a.blocks
        (root.rootHash == oldest.mtroot) 0 = .ok true := by
      refine (auditBlocks_eq_true_iff ..).mpr ⟨keys, hkeys, ?_⟩
      rwa [beq_iff_eq, List.drop_zero]
    refine ⟨db', some oldest, hwalk, ?_⟩
    simp only [hupdate, ok_bind, hblocks]
    rfl

end LedgerDatabase.Ledgerdb.Auditor
