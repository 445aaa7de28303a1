import LedgerDatabase.Ledgerdb.Equiv.Mpt.Proof
import LedgerDatabase.Ledgerdb.Equiv.LedgerDB

/-!
# `GetProofs` on a commit

`Knows H S know vals batches c info`: the answers `know` are those of a store with commit `c`.
Then the proofs that `GetProofs` makes for it verify: `merkle_runIn` for a block, `mpt_runIn` for a
key.  `proofLoop_runs` takes the loop apart when other threads work on the store meanwhile.
-/

namespace LedgerDatabase.Ledgerdb.LedgerDB

open Mpt MerkleTree

/-! ### The blocks with a Merkle proof -/

/-- The blocks at which `GetProofs` makes a Merkle proof. -/
def changes : ℕ → List ℕ → List ℕ
  | _, [] => []
  | current, blk :: blks => (if blk ≠ current then [blk] else []) ++ changes blk blks

/-! ### A known commit -/

/-- The answers for commit `c`, made after the given batches. -/
structure Knows (H : Bytes → Hash) (S : Set Bytes) (know : Query → Option (Option Bytes))
    (vals : List Bytes) (batches : List (List TreeBlock)) (c : ℕ) (info : CommitInfo) : Prop where
  entry : know (.string (commitKey (toDecimal c))) = some (some info.toBytes)
  info : InfoOk H vals batches c info
  length_leaves : (leavesOf H vals batches).length = batches.flatten.length
  merkle : KnowsTree H know (leavesOf H vals batches) c
  trie : Version H S know (treeOf batches)

section

variable {H : Bytes → Hash} {S : Set Bytes} {know : Query → Option (Option Bytes)}
  {vals : List Bytes} {batches : List (List TreeBlock)} {c : ℕ} {info : CommitInfo}

/-- A Merkle proof of a commit. -/
def MtOk (H : Bytes → Hash) (info : CommitInfo) (p : Proof) : Prop :=
  p.digest = info.mtroot ∧ p.verify H = .ok true

/-- A trie proof of a commit, for a key that is in the blocks of the commit. -/
def MptOk (H : Bytes → Hash) (batches : List (List TreeBlock)) (info : CommitInfo) (key : Bytes)
    (p : MPTProof) : Prop :=
  (∃ blk ∈ batches.flatten, key ∈ blk.mptKs) →
    p.verifyProof H (Hash.fromBase32 info.mptroot) key = .ok true

/-- **The Merkle proof of a block.** -/
theorem Knows.merkle_runIn (h : Knows H S know vals batches c info) {b : ℕ}
    (hb : b ≤ info.tipBlock) :
    ∃ p, (getProof (toDecimal c) info.mtrootkey info.tipBlock b).runIn know = some (.ok p) ∧
      MtOk H info p := by
  have hlen := h.info.tipBlock
  rw [← h.length_leaves] at hlen
  obtain ⟨leaf, hleaf⟩ : ∃ leaf, (leavesOf H vals batches)[b]? = some leaf :=
    ⟨_, List.getElem?_eq_getElem (by omega)⟩
  obtain ⟨p, hp, -, hdigest, hverify⟩ := MerkleTree.getProof_runIn h.merkle hleaf
  refine ⟨p, ?_, hdigest.trans h.info.mtroot.symm, hverify⟩
  rw [h.info.mtrootkey, ← hp]
  congr 2
  omega

theorem lastTs_eq_some {blks : List TreeBlock} {key : Bytes}
    (h : ∃ blk ∈ blks, key ∈ blk.mptKs) : ∃ blk ∈ blks, lastTs blks key = some blk.mptTs := by
  obtain ⟨blk, hblk, hkey⟩ := h
  rcases hfind : blks.reverse.find? fun blk => key ∈ blk.mptKs with _ | blk'
  · exact absurd (decide_eq_true hkey)
      (List.find?_eq_none.mp hfind blk (List.mem_reverse.mpr hblk))
  · refine ⟨blk', List.mem_reverse.mp (List.mem_of_find?_eq_some hfind), ?_⟩
    rw [lastTs, hfind]
    rfl

/-- **The trie proof of a key.** -/
theorem Knows.mpt_runIn (hinj : Set.InjOn H S) (h : Knows H S know vals batches c info)
    (hascii : ∀ blk ∈ batches.flatten, ∀ k ∈ blk.mptKs, Ascii k)
    (hts : ∀ blk ∈ batches.flatten, blk.mptTs ≠ []) {key : Bytes} (hkey : Ascii key) :
    ∃ p, (Trie.getProof (enc H (treeOf batches)) key).runIn know = some (.ok p) ∧
      MptOk H batches info key p := by
  refine ⟨_, getProof_runIn h.trie.wf h.trie.good.fits h.trie.known hkey, fun hwritten => ?_⟩
  obtain ⟨blk, hblk, hlast⟩ := lastTs_eq_some hwritten
  have hget : (treeOf batches).get (hexKey key) = some blk.mptTs := by
    rw [holds_treeOf hascii key hkey, hlast]
  rw [h.info.mptroot, Hash.fromBase32_toBase32, hget]
  exact verifyProof_pathOf hinj h.trie.good h.trie.wf (isValue_of_wf h.trie.wf) hkey
    (hts blk hblk) hget

/-- The loop on requests for ASCII keys and blocks with a Merkle proof. -/
theorem Knows.proofLoop_runIn (h : Knows H S know vals batches c info) : ∀ {keys : List Bytes}
    {blks : List ℕ} {current : ℕ}, (∀ k ∈ keys, Ascii k) →
    (∀ b ∈ blks, ∃ p, (getProof (toDecimal c) info.mtrootkey info.tipBlock b).runIn know
      = some (.ok p)) →
    keys.length ≤ blks.length →
    ∃ r, (proofLoop (toDecimal c) info.mtrootkey info.tipBlock (enc H (treeOf batches)) keys blks
      current).runIn know = some (.ok r)
  | [], _, _, _, _, _ => ⟨_, rfl⟩
  | _ :: _, [], _, _, _, hlen => absurd hlen (by simp)
  | key :: keys, b :: blks, current, hkeys, hblks, hlen => by
    have hmt : ∃ x, (mtProofFor (toDecimal c) info.mtrootkey info.tipBlock current b).runIn know
        = some (.ok x) := by
      rw [mtProofFor]
      split_ifs
      · obtain ⟨p, hp⟩ := hblks b List.mem_cons_self
        exact ⟨[p], by rw [Ask.runIn_bind_ok know _ hp]; rfl⟩
      · exact ⟨[], rfl⟩
    obtain ⟨mt, hmt⟩ := hmt
    have hmpt : ∃ p, (Trie.getProof (enc H (treeOf batches)) key).runIn know = some (.ok p) :=
      ⟨_, getProof_runIn h.trie.wf h.trie.good.fits h.trie.known (hkeys key List.mem_cons_self)⟩
    have hrest : ∃ r, (proofLoop (toDecimal c) info.mtrootkey info.tipBlock (enc H (treeOf batches))
        keys blks b).runIn know = some (.ok r) :=
      h.proofLoop_runIn (fun k hk => hkeys k (List.mem_cons_of_mem _ hk))
        (fun b hb => hblks b (List.mem_cons_of_mem _ hb)) (by simpa using hlen)
    obtain ⟨p, hp⟩ := hmpt
    obtain ⟨r, hr⟩ := hrest
    refine ⟨(mt ++ r.1, p :: r.2), ?_⟩
    rw [proofLoop, Ask.runIn_bind_ok know _ hmt, Ask.runIn_bind_ok know _ hp,
      Ask.runIn_bind_ok know _ hr]
    rfl

/-- What follows once the digest has been read. -/
def proofsOf (H : Bytes → Hash) (c : ℕ) (keys : List Bytes) (keyBlkSeqs : List ℕ) :
    Reads Proofs := do
  let commit ← readString (commitKey (toDecimal c))
  let cinfo ← Ask.ofExcept (CommitInfo.ofString commit)
  let mpt ← Trie.setNodeForHash H (Hash.fromBase32 cinfo.mptroot)
  let (mtProofs, mptProofs) ←
    proofLoop (toDecimal c) cinfo.mtrootkey cinfo.tipBlock mpt keys keyBlkSeqs 0
  return { mtProofs, mptProofs, rootDigest := cinfo.mtroot, blkSeq := cinfo.tipBlock
           mptDigest := cinfo.mptroot }

/-- `GetProofs` reads the digest first. -/
theorem getProofs_eq (H : Bytes → Hash) (keys : List Bytes) (keyBlkSeqs : List ℕ) :
    getProofs H keys keyBlkSeqs = .ask (.string (str "digest")) fun v =>
      Ask.ofExcept (DigestInfo.ofString (v.getD [])) >>= fun dinfo =>
        proofsOf H dinfo.commitSeq keys keyBlkSeqs := by
  show Ask.ask _ _ = _
  congr 1
  funext v
  cases hd : DigestInfo.ofString (v.getD []) with
  | error e =>
    show (Ask.ofExcept (DigestInfo.ofString (v.getD [])) >>= _ >>= _) = _
    rw [hd]
    rfl
  | ok dinfo =>
    show (Ask.ofExcept (DigestInfo.ofString (v.getD [])) >>= _ >>= _) = _
    rw [hd]
    show Ask.ask _ _ = Ask.ask _ _
    congr 1
    funext e
    show (Ask.ofExcept (CommitInfo.ofString (e.getD [])) >>= _ >>= _) =
      (Ask.ofExcept (CommitInfo.ofString (e.getD [])) >>= _)
    cases CommitInfo.ofString (e.getD []) <;> rfl

/-- The entry and the root of the trie are known. -/
theorem Knows.open_runIn (hinj : Set.InjOn H S) (hnil : enc H .nil ∈ S)
    (h : Knows H S know vals batches c info) :
    (readString (commitKey (toDecimal c))).runIn know = some (.ok info.toBytes) ∧
      CommitInfo.ofString info.toBytes = .ok info ∧
      (Trie.setNodeForHash H (Hash.fromBase32 info.mptroot)).runIn know
        = some (.ok (enc H (treeOf batches))) := by
  refine ⟨readString_runIn h.entry, CommitInfo.ofString_toBytes h.info.clean, ?_⟩
  rw [h.info.mptroot, Hash.fromBase32_toBase32]
  exact h.trie.open_runIn hinj hnil

/-- The whole of `GetProofs` behind the digest, on requests for ASCII keys and blocks with a Merkle
proof. -/
theorem Knows.proofsOf_runIn (hinj : Set.InjOn H S) (hnil : enc H .nil ∈ S)
    (h : Knows H S know vals batches c info) {keys : List Bytes} {blks : List ℕ}
    (hkeys : ∀ k ∈ keys, Ascii k)
    (hblks : ∀ b ∈ blks, ∃ p, (getProof (toDecimal c) info.mtrootkey info.tipBlock b).runIn know
      = some (.ok p))
    (hlen : keys.length ≤ blks.length) :
    ∃ proofs, (proofsOf H c keys blks).runIn know = some (.ok proofs) := by
  obtain ⟨hread, hparse, hopen⟩ := h.open_runIn hinj hnil
  have hloop : ∃ r, (proofLoop (toDecimal c) info.mtrootkey info.tipBlock (enc H (treeOf batches))
      keys blks 0).runIn know = some (.ok r) := h.proofLoop_runIn hkeys hblks hlen
  obtain ⟨r, hr⟩ := hloop
  refine ⟨⟨r.1, r.2, info.mtroot, info.tipBlock, info.mptroot⟩, ?_⟩
  rw [proofsOf, Ask.runIn_bind_ok know _ hread, Ask.runIn_ofExcept_bind_ok know _ hparse,
    Ask.runIn_bind_ok know _ hopen, Ask.runIn_bind_ok know _ hr]
  rfl

end

/-! ### The last commit of a ledger -/

section

variable {H : Bytes → Hash} {S : Set Bytes} {p : Plan} {vals : List Bytes} {s : LedgerDB} {c : ℕ}

/-- What those who read a store find there: the commits that were made from the given batches, and
the digest of the last one. -/
structure Served (H : Bytes → Hash) (S : Set Bytes) (vals : List Bytes)
    (batches : List (List TreeBlock)) (db : DB) : Prop where
  nonempty : ∀ b ∈ batches, b ≠ []
  length_le : batches.flatten.length ≤ vals.length
  ledger : ∀ i v, vals[i]? = some v → db.getString (ledgerKey i) = some v
  store : StoreOk H S db
  commits : ∀ c < batches.length, CommitOk H S vals (batches.take (c + 1)) c db
  digest : ∀ c, c + 1 = batches.length → DigestOk H batches c db

theorem Inv.served (hp : p.Ok) (h : Inv H S p vals s) : Served H S vals p.batches s.db where
  nonempty := hp.nonempty
  length_le := by
    have h1 := hp.length_le
    have h2 := h.length_vals
    omega
  ledger := h.ledger
  store := h.store
  commits := h.commits
  digest := h.digest

section

variable {batches : List (List TreeBlock)} {db : DB}

/-- The commits of a ledger are known to whoever reads it. -/
theorem Served.knows (hH : HashOk H S) (h : Served H S vals batches db) (hc : c < batches.length) :
    ∃ info, Knows H S (knowStore H S db) vals (batches.take (c + 1)) c info := by
  have hcommit := h.commits c hc
  obtain ⟨info, hget, hinfo⟩ := hcommit.entry
  have hlen := (length_flatten_take_le batches (c + 1)).trans h.length_le
  refine ⟨info, congrArg some hget, hinfo, length_leavesOf hlen, fun l j v hl hv => ?_,
    hcommit.stored.version h.store hH.nil⟩
  exact congrArg some (hcommit.merkle l j v hl hv)

/-- `GetProofs` goes on with the commit that the digest names. -/
theorem DigestOk.getProofs_runIn (h : DigestOk H batches c db) {keys : List Bytes} {blks : List ℕ}
    {r : Except Fault Proofs} (hr : (proofsOf H c keys blks).runIn (knowStore H S db) = some r) :
    (getProofs H keys blks).runIn (knowStore H S db) = some r := by
  obtain ⟨d, hd, hbar, hseq, -⟩ := h
  rw [getProofs_eq]
  show (Ask.ofExcept (DigestInfo.ofString ((db.getString (str "digest")).getD [])) >>= _).runIn _ = _
  rw [hd, Option.getD_some, Ask.runIn_ofExcept_bind_ok _ _ (DigestInfo.ofString_toBytes hbar), hseq]
  exact hr

end

theorem Inv.knows (hH : HashOk H S) (hp : p.Ok) (h : Inv H S p vals s) (hc : c < p.batches.length) :
    ∃ info, Knows H S (knowStore H S s.db) vals (p.batches.take (c + 1)) c info :=
  (h.served hp).knows hH hc

/-- `GetProofs` on requests for ASCII keys and blocks up to the tip. -/
theorem Inv.getProofs_runIn (hH : HashOk H S) (hp : p.Ok) (h : Inv H S p vals s)
    (hc : 0 < p.batches.length) {keys : List Bytes} {blks : List ℕ} (hkeys : ∀ k ∈ keys, Ascii k)
    (hblks : ∀ b ∈ blks, b < p.batches.flatten.length) (hlen : keys.length ≤ blks.length) :
    ∃ proofs, (getProofs H keys blks).runIn (knowStore H S s.db) = some (.ok proofs) := by
  have hlast : p.batches.length - 1 + 1 = p.batches.length := Nat.sub_add_cancel hc
  obtain ⟨info, hknows⟩ := h.knows hH hp (Nat.sub_lt hc Nat.one_pos)
  have htip := hknows.info.tipBlock
  rw [hlast, List.take_length] at htip
  obtain ⟨proofs, hproofs⟩ := hknows.proofsOf_runIn hH.inj hH.nil hkeys (fun b hb => by
    have hlt := hblks b hb
    obtain ⟨p, hp, -⟩ := hknows.merkle_runIn (b := b) (by omega)
    exact ⟨p, hp⟩) hlen
  exact ⟨proofs, (h.digest _ hlast).getProofs_runIn hproofs⟩

/-- The digest that is published. -/
theorem DigestOk.getRootDigest_run {batches : List (List TreeBlock)} {db : DB}
    (h : DigestOk H batches c db) :
    ∃ tip digest, getRootDigest.run db.view = .ok (tip, digest) ∧
      tip + 1 = batches.flatten.length := by
  obtain ⟨d, hd, hbar, -, htip, -⟩ := h
  refine ⟨d.tipBlock, d.digest, ?_, htip⟩
  have hne : ¬ d.toBytes.length = 0 := by
    rw [DigestInfo.toBytes, List.append_assoc, List.append_assoc, List.append_assoc,
      List.length_append]
    have := List.length_pos_iff.mpr (toDecimal_ne_nil d.commitSeq)
    omega
  rw [getRootDigest, Ask.run_bind]
  change (Except.ok ((db.getString (str "digest")).getD []) >>= _) = _
  rw [hd, Option.getD_some, ok_bind, if_neg hne, DigestInfo.ofString_toBytes hbar]
  rfl

end

/-! ### The loop among other threads -/

section

variable {σ : Type} {step : Query → σ → Option Bytes × σ} {env : σ → σ → Prop} {good : σ → Prop}
  {commitSeq mtRootKey mpt : Bytes} {tip : ℕ} {A : ℕ → Proof → Prop} {B : Bytes → MPTProof → Prop}

/-- **The loop of `GetProofs`**: a Merkle proof for every change of the block and a trie proof for
every key, each made in a good state. -/
theorem proofLoop_runs (henv : ∀ w w', env w w' → good w → good w')
    (hmt : ∀ b w w' r, good w →
      Ask.Runs step env (getProof commitSeq mtRootKey tip b) w r w' →
      good w' ∧ ∀ p, r = .ok p → A b p)
    (hmpt : ∀ key w w' r, good w → Ask.Runs step env (Trie.getProof mpt key) w r w' →
      good w' ∧ ∀ p, r = .ok p → B key p) :
    ∀ {keys : List Bytes} {blks : List ℕ} {current : ℕ} {w w' : σ}
      {r : List Proof × List MPTProof}, good w →
      Ask.Runs step env (proofLoop commitSeq mtRootKey tip mpt keys blks current) w (.ok r) w' →
      List.Forall₂ A (changes current (blks.take keys.length)) r.1 ∧ List.Forall₂ B keys r.2
  | [], blks, current, w, w', r, _, hrun => by
    obtain rfl := Except.ok.inj (Ask.Runs.pure_inv hrun)
    exact ⟨.nil, .nil⟩
  | key :: keys, [], current, w, w', r, _, hrun => by
    cases Ask.Runs.fail_inv hrun
  | key :: keys, b :: blks, current, w, w', r, hgood, hrun => by
    rw [proofLoop] at hrun
    rcases hrun.bind_inv with ⟨mt, w₁, hrun₁, hrun⟩ | ⟨e, he, -⟩
    swap
    · cases he
    have hfirst : good w₁ ∧ List.Forall₂ A (if b ≠ current then [b] else []) mt := by
      rw [mtProofFor] at hrun₁
      split_ifs at hrun₁ ⊢
      · rcases hrun₁.bind_inv with ⟨p, w₂, hp, hret⟩ | ⟨e, he, -⟩
        · obtain rfl := Except.ok.inj (Ask.Runs.pure_inv hret)
          obtain ⟨hgood₂, hA⟩ := hmt b w w₂ _ hgood hp
          exact ⟨hret.inv_pure good henv hgood₂, .cons (hA p rfl) .nil⟩
        · cases he
      · obtain rfl := Except.ok.inj (Ask.Runs.pure_inv hrun₁)
        exact ⟨hrun₁.inv_pure good henv hgood, .nil⟩
    rcases hrun.bind_inv with ⟨p, w₂, hp, hrun⟩ | ⟨e, he, -⟩
    swap
    · cases he
    obtain ⟨hgood₂, hB⟩ := hmpt key w₁ w₂ _ hfirst.1 hp
    rcases hrun.bind_inv with ⟨rest, w₃, hrest, hret⟩ | ⟨e, he, -⟩
    swap
    · cases he
    obtain ⟨hmts, hmpts⟩ := proofLoop_runs henv hmt hmpt hgood₂ hrest
    obtain rfl := Except.ok.inj (Ask.Runs.pure_inv hret)
    refine ⟨?_, .cons (hB p rfl) hmpts⟩
    rw [List.length_cons, List.take_succ_cons, changes]
    exact List.rel_append hfirst.2 hmts

end

end LedgerDatabase.Ledgerdb.LedgerDB
