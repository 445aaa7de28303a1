import LedgerDatabase.Distributed.VersionStore
import LedgerDatabase.Ledgerdb.Equiv.GetProofs
import LedgerDatabase.Ledgerdb.Equiv.HashChain

/-!
# The proofs of a reply

`GetProofs` makes a trie proof for every key but a Merkle proof only where the block changes, with
block 0 as the first one (`changes`); the reply has an entry for each of the Merkle proofs and takes
the trie proof with the same index.  `getProof_carries_iff`: so it carries the proofs of all requested
keys exactly when no key is asked for under block 0 and at most one under every other block.
-/

namespace LedgerDatabase.Distributed.VersionedKVStore

open Ledgerdb LedgerDB

/-! ### `GetProofs` -/

theorem length_changes_le (current : ℕ) (blks : List ℕ) :
    (changes current blks).length ≤ blks.length := by
  induction blks generalizing current with
  | nil => exact le_rfl
  | cons blk blks ih =>
    have := ih blk
    rw [changes, List.length_append, List.length_cons]
    split_ifs
    · simp only [List.length_singleton]
      omega
    · simp only [List.length_nil]
      omega

/-- There is a Merkle proof for every key when every key changes the block. -/
theorem changes_eq_self_iff (current : ℕ) (blks : List ℕ) :
    changes current blks = blks ↔ (current :: blks).IsChain (· ≠ ·) := by
  induction blks generalizing current with
  | nil => simp [changes]
  | cons blk blks ih =>
    rw [changes, List.isChain_cons_cons, ← ih]
    by_cases h : blk = current
    · have hle := length_changes_le blk blks
      rw [if_neg (not_not.mpr h)]
      constructor
      · intro heq
        have := congrArg List.length heq
        rw [List.nil_append, List.length_cons] at this
        omega
      · rintro ⟨hne, -⟩
        exact absurd h.symm hne
    · rw [if_pos h]
      simp [Ne.symm h]

theorem length_changes_eq_iff (current : ℕ) (blks : List ℕ) :
    blks.length ≤ (changes current blks).length ↔ changes current blks = blks := by
  constructor
  · intro hle
    rw [changes_eq_self_iff]
    induction blks generalizing current with
    | nil => simp
    | cons blk blks ih =>
      have := length_changes_le blk blks
      rw [changes, List.length_append, List.length_cons] at hle
      by_cases h : blk = current
      · rw [if_neg (not_not.mpr h), List.length_nil] at hle
        omega
      · rw [if_pos h, List.length_singleton] at hle
        rw [List.isChain_cons_cons]
        exact ⟨Ne.symm h, ih blk (by omega)⟩
  · intro heq
    rw [heq]

section

variable {view : Query → Option Bytes} {commitSeq mtRootKey mpt : Bytes} {tip : ℕ}

/-- The loop of `GetProofs` on a store that nobody changes. -/
theorem proofLoop_run {keys : List Bytes} {blks : List ℕ} {current : ℕ}
    {r : List Proof × List MPTProof} (hlen : keys.length = blks.length)
    (h : (proofLoop commitSeq mtRootKey tip mpt keys blks current).run view = .ok r) :
    List.Forall₂ (fun blk p => (MerkleTree.getProof commitSeq mtRootKey tip blk).run view = .ok p)
      (changes current blks) r.1 ∧
    List.Forall₂ (fun key p => (Trie.getProof mpt key).run view = .ok p) keys r.2 := by
  have hrun := Ask.runs_run view (proofLoop commitSeq mtRootKey tip mpt keys blks current)
  rw [h] at hrun
  have henv : ∀ w w' : Unit, False → True → True := fun _ _ he => he.elim
  have hall := proofLoop_runs
    (A := fun blk p => (MerkleTree.getProof commitSeq mtRootKey tip blk).run view = .ok p)
    (B := fun key p => (Trie.getProof mpt key).run view = .ok p) henv
    (fun b w w' r _ hr => ⟨trivial, fun p hp => hr.eq_run.symm.trans hp⟩)
    (fun key w w' r _ hr => ⟨trivial, fun p hp => hr.eq_run.symm.trans hp⟩) trivial hrun
  rwa [hlen, List.take_length] at hall

end

theorem length_flatKeys (keys : KeyMap) : (flatKeys keys).length = (flatBlocks keys).length := by
  simp [flatKeys, flatBlocks, List.length_flatMap]

/-- **`GetProofs`** on a store that nobody changes. -/
theorem getProofs_run {H : Bytes → Hash} {view : Query → Option Bytes} {keys : KeyMap}
    {proofs : Proofs} (h : (getProofs H (flatKeys keys) (flatBlocks keys)).run view = .ok proofs) :
    ∃ commitSeq cinfo mpt, latestCommit.run view = .ok (commitSeq, cinfo) ∧
      (Trie.setNodeForHash H (Hash.fromBase32 cinfo.mptroot)).run view = .ok mpt ∧
      List.Forall₂ (fun blk p => (MerkleTree.getProof commitSeq cinfo.mtrootkey cinfo.tipBlock
        blk).run view = .ok p) (changes 0 (flatBlocks keys)) proofs.mtProofs ∧
      List.Forall₂ (fun key p => (Trie.getProof mpt key).run view = .ok p) (flatKeys keys)
        proofs.mptProofs := by
  rw [getProofs, Ask.run_bind, bind_eq_ok_iff] at h
  obtain ⟨⟨commitSeq, cinfo⟩, hcommit, h⟩ := h
  rw [Ask.run_bind, bind_eq_ok_iff] at h
  obtain ⟨mpt, hmpt, h⟩ := h
  rw [Ask.run_bind, bind_eq_ok_iff] at h
  obtain ⟨r, hloop, h⟩ := h
  obtain rfl := Except.ok.inj h
  obtain ⟨hmts, hmpts⟩ := proofLoop_run (length_flatKeys keys) hloop
  exact ⟨commitSeq, cinfo, mpt, hcommit, hmpt, hmts, hmpts⟩

/-! ### The reply -/

/-- The entries of a reply, when they can be filled: one for each Merkle proof. -/
theorem fillProofs_eq_ok {mts : List Proof} {mpts : List MPTProof} {ps : List LedgerDBProof}
    (h : fillProofs mts mpts = .ok ps) :
    ps.length = mts.length ∧ ∀ (i : ℕ) p, ps[i]? = some p → ∃ mt mpt, mts[i]? = some mt ∧
      mpts[i]? = some mpt ∧ proofEntry mt mpt = .ok p := by
  induction mts generalizing mpts ps with
  | nil =>
    obtain rfl := Except.ok.inj h
    simp
  | cons mt mts ih =>
    cases mpts with
    | nil => cases h
    | cons mpt mpts =>
      rw [fillProofs, bind_eq_ok_iff] at h
      obtain ⟨p, hp, h⟩ := h
      obtain ⟨ps', hps', h⟩ := bind_eq_ok_iff.mp h
      obtain rfl := Except.ok.inj h
      obtain ⟨hlen, hall⟩ := ih hps'
      refine ⟨by rw [List.length_cons, List.length_cons, hlen], fun i q hq => ?_⟩
      cases i with
      | zero =>
        obtain rfl := Option.some.inj hq
        exact ⟨mt, mpt, rfl, rfl, hp⟩
      | succ i => exact hall i q hq

/-- The blocks of a request change at every key exactly when no key is asked for under the current
block and at most one under every other. -/
theorem isChain_flatBlocks_iff (current : ℕ) (entries : List (ℕ × List Bytes))
    (hsorted : entries.Pairwise fun e e' => e.1 < e'.1) (hle : ∀ e ∈ entries, current ≤ e.1) :
    (current :: entries.flatMap fun e => e.2.map fun _ => e.1).IsChain (· ≠ ·) ↔
      ∀ e ∈ entries, e.2.length ≤ 1 ∧ (e.1 = current → e.2 = []) := by
  induction entries generalizing current with
  | nil => simp
  | cons e entries ih =>
    obtain ⟨blk, ks⟩ := e
    rw [List.pairwise_cons] at hsorted
    obtain ⟨hlt, hsorted⟩ := hsorted
    have hblk : current ≤ blk := hle _ List.mem_cons_self
    rw [List.flatMap_cons, List.forall_mem_cons]
    match ks with
    | [] =>
      rw [List.map_nil, List.nil_append, ih current hsorted fun e he => by
        have := hlt e he
        simp only at this
        omega]
      simp
    | [k] =>
      rw [List.map_cons, List.map_nil, List.singleton_append, List.isChain_cons_cons,
        ih blk hsorted fun e he => (hlt e he).le]
      have hnext : (∀ e ∈ entries, e.2.length ≤ 1 ∧ (e.1 = blk → e.2 = [])) ↔
          ∀ e ∈ entries, e.2.length ≤ 1 ∧ (e.1 = current → e.2 = []) := by
        refine forall₂_congr fun e he => and_congr_right fun _ => ?_
        have := hlt e he
        simp only at this
        exact ⟨fun _ h => by omega, fun _ h => by omega⟩
      rw [hnext]
      simp [eq_comm]
    | k :: k' :: ks =>
      simp [List.isChain_cons_cons]

/-! ### What the reply carries -/

/-- The reply carries the proofs for the key with index `i`: the trie proof generated for the key
and the Merkle proof generated for its block, in the latest commit. -/
def Carries (H : Bytes → Hash) (view : Query → Option Bytes) (reply : Reply) (i : ℕ) (key : Bytes)
    (blk : ℕ) : Prop :=
  ∃ commitSeq cinfo mpt p mtProof mptProof,
    latestCommit.run view = .ok (commitSeq, cinfo) ∧
    (Trie.setNodeForHash H (Hash.fromBase32 cinfo.mptroot)).run view = .ok mpt ∧
    reply.proof[i]? = some p ∧ proofEntry mtProof mptProof = .ok p ∧
    (MerkleTree.getProof commitSeq cinfo.mtrootkey cinfo.tipBlock blk).run view = .ok mtProof ∧
    (Trie.getProof mpt key).run view = .ok mptProof

/-- No key is asked for under block 0, and at most one under every other block. -/
def OnePerBlock (keys : KeyMap) : Prop :=
  ∀ e ∈ keys.entries, e.2.length ≤ 1 ∧ (e.1 = 0 → e.2 = [])

/-- What a reply carries on a store that nobody changes. -/
theorem run_carries_iff {H : Bytes → Hash} {view : Query → Option Bytes} {keys : KeyMap}
    {reply : Reply} (h : (getProof H keys).run view = .ok reply) :
    (∀ i key blk, (flatKeys keys)[i]? = some key → (flatBlocks keys)[i]? = some blk →
        Carries H view reply i key blk) ↔ OnePerBlock keys := by
  rw [getProof, Ask.run_bind, bind_eq_ok_iff] at h
  obtain ⟨proofs, hproofs, h⟩ := h
  rw [Ask.run_bind, bind_eq_ok_iff] at h
  obtain ⟨ps, hps, h⟩ := h
  obtain rfl := Except.ok.inj h
  rw [Ask.run_ofExcept] at hps
  obtain ⟨commitSeq, cinfo, mpt, hcommit, hmpt, hmts, hmpts⟩ := getProofs_run hproofs
  obtain ⟨hpslen, hentry⟩ := fillProofs_eq_ok hps
  have hmtslen := hmts.length_eq
  have hkeyslen := length_flatKeys keys
  have hcond : OnePerBlock keys ↔ (flatBlocks keys).length ≤ (changes 0 (flatBlocks keys)).length := by
    rw [length_changes_eq_iff, changes_eq_self_iff]
    exact (isChain_flatBlocks_iff 0 keys.entries keys.sorted fun _ _ => Nat.zero_le _).symm
  rw [hcond]
  constructor
  · intro hall
    -- a key beyond the last entry would be carried by no entry
    by_contra hlt
    obtain ⟨-, -, -, p, -, -, -, -, hp, -⟩ := hall ps.length
      ((flatKeys keys).get ⟨ps.length, by omega⟩) ((flatBlocks keys).get ⟨ps.length, by omega⟩)
      (List.getElem?_eq_getElem _) (List.getElem?_eq_getElem _)
    rw [List.getElem?_eq_none le_rfl] at hp
    cases hp
  · intro hle i key blk hkey hblk
    rw [length_changes_eq_iff] at hle
    rw [hle] at hmts hmtslen
    have hi := (List.getElem?_eq_some_iff.mp hblk).1
    have hp : ps[i]? = some (ps.get ⟨i, by omega⟩) := List.getElem?_eq_getElem _
    obtain ⟨mt, mptProof, hmt, hmptProof, hfill⟩ := hentry i _ hp
    refine ⟨commitSeq, cinfo, mpt, _, mt, mptProof, hcommit, hmpt, hp, hfill, ?_, ?_⟩
    · obtain ⟨hi', rfl⟩ := List.getElem?_eq_some_iff.mp hmt
      obtain ⟨hi'', rfl⟩ := List.getElem?_eq_some_iff.mp hblk
      exact (List.forall₂_iff_get.mp hmts).2 i hi'' hi'
    · obtain ⟨hi', rfl⟩ := List.getElem?_eq_some_iff.mp hmptProof
      obtain ⟨hi'', rfl⟩ := List.getElem?_eq_some_iff.mp hkey
      exact (List.forall₂_iff_get.mp hmpts).2 i hi'' hi'

/-! ### That there is a reply -/

/-- The siblings of a Merkle proof come with their positions. -/
theorem length_pos_eq {view : Query → Option Bytes} {commitSeq rootKey : Bytes} {tip b : ℕ}
    {p : Proof} (h : (MerkleTree.getProof commitSeq rootKey tip b).run view = .ok p) :
    p.pos.length = p.proof.length := by
  rw [MerkleTree.getProof, Ask.run_bind, bind_eq_ok_iff] at h
  obtain ⟨digest, -, h⟩ := h
  rw [Ask.run_bind, bind_eq_ok_iff] at h
  obtain ⟨value, -, h⟩ := h
  rw [Ask.run_bind, bind_eq_ok_iff] at h
  obtain ⟨text, -, h⟩ := h
  rw [Ask.run_bind, bind_eq_ok_iff] at h
  obtain ⟨level, -, h⟩ := h
  rw [Ask.run_bind, bind_eq_ok_iff] at h
  obtain ⟨steps, -, h⟩ := h
  obtain rfl := Except.ok.inj h
  rw [List.length_map, List.length_map]

theorem exists_fillProofs {mts : List Proof} {mpts : List MPTProof}
    (hlen : mts.length ≤ mpts.length) (hpos : ∀ mt ∈ mts, mt.pos.length = mt.proof.length) :
    ∃ ps, fillProofs mts mpts = .ok ps := by
  induction mts generalizing mpts with
  | nil => exact ⟨[], rfl⟩
  | cons mt mts ih =>
    cases mpts with
    | nil => exact absurd hlen (by simp)
    | cons mpt mpts =>
      obtain ⟨ps, hps⟩ := ih (by simpa using hlen) fun mt hmt => hpos mt (List.mem_cons_of_mem _ hmt)
      have hfits : ¬ mt.pos.length < mt.proof.length := by
        rw [hpos mt List.mem_cons_self]
        exact lt_irrefl _
      have hentry : ∃ p, proofEntry mt mpt = .ok p := ⟨_, by rw [proofEntry, if_neg hfits]⟩
      obtain ⟨p, hp⟩ := hentry
      exact ⟨p :: ps, by rw [fillProofs, hp, ok_bind, hps, ok_bind]; rfl⟩

/-- A request for ASCII keys in blocks up to the tip of a ledger with a commit is answered. -/
theorem exists_reply {H : Bytes → Hash} {S : Set Bytes} {p : Plan} {vals : List Bytes}
    {s : LedgerDB} (hH : HashOk H S) (hp : p.Ok) (h : Inv H S p vals s)
    (hc : 0 < p.batches.length) {keys : KeyMap} (hkeys : ∀ k ∈ flatKeys keys, Mpt.Ascii k)
    (hblks : ∀ b ∈ flatBlocks keys, b < p.batches.flatten.length) :
    ∃ reply, (getProof H keys).run s.db.view = .ok reply := by
  obtain ⟨proofs, hproofs⟩ := h.getProofs_runIn hH hp hc hkeys hblks (length_flatKeys keys).le
  have hrun : (getProofs H (flatKeys keys) (flatBlocks keys)).run s.db.view = .ok proofs := by
    rw [← Mpt.reads_fst]
    exact (h.store.reads_of_runIn hH.inj hproofs).1
  obtain ⟨commitSeq, cinfo, mpt, -, -, hmts, hmpts⟩ := getProofs_run hrun
  have hlen : proofs.mtProofs.length ≤ proofs.mptProofs.length := by
    rw [← hmts.length_eq, ← hmpts.length_eq, length_flatKeys]
    exact length_changes_le _ _
  have hpos : ∀ mt ∈ proofs.mtProofs, mt.pos.length = mt.proof.length := by
    intro mt hmt
    obtain ⟨i, hi, rfl⟩ := List.getElem_of_mem hmt
    exact length_pos_eq ((List.forall₂_iff_get.mp hmts).2 i (by rw [hmts.length_eq]; exact hi) hi)
  obtain ⟨ps, hps⟩ := exists_fillProofs hlen hpos
  refine ⟨⟨0, ⟨Int64.ofNat proofs.blkSeq, proofs.rootDigest, proofs.mptDigest⟩, ps⟩, ?_⟩
  rw [getProof, Ask.run_bind, hrun, ok_bind, Ask.run_bind, Ask.run_ofExcept, hps]
  rfl

/-- **What a reply carries**, on every ledger with a commit and for every request for blocks up to
its tip: the proofs of all requested keys, exactly when no key is asked for under block 0 and at
most one under every other block.  With ASCII keys there always is a reply. -/
theorem getProof_carries_iff (H : Bytes → Hash) (steps : List Step) (s : LedgerDB)
    (hrun : run H steps = .ok s) (hcommit : 0 < s.commitSeq) (keys : KeyMap)
    (hblks : ∀ tip digest, getRootDigest.run s.db.view = .ok (tip, digest) →
      ∀ b ∈ flatBlocks keys, b ≤ tip) :
    (∀ reply, (s.db.reads (getProof H keys)).1 = .ok reply →
      ((∀ i key blk, (flatKeys keys)[i]? = some key → (flatBlocks keys)[i]? = some blk →
        Carries H s.db.view reply i key blk) ↔ OnePerBlock keys)) ∧
    (AsciiSteps steps → Set.InjOn H {c | c ∈ runChunks H steps} →
      (∀ c ∈ runChunks H steps, ¬ TextKey (H c).bytes) → (∀ k ∈ flatKeys keys, Mpt.Ascii k) →
      ∃ reply, (s.db.reads (getProof H keys)).1 = .ok reply) := by
  rw [Mpt.reads_fst]
  refine ⟨fun reply hreply => run_carries_iff hreply, fun hascii hinj htext hkeys => ?_⟩
  have hH : HashOk H {c | c ∈ runChunks H steps} := ⟨hinj, htext, List.mem_cons_self⟩
  obtain ⟨vals, hinv⟩ := inv_of_run hH hascii chunks_of_runChunks hrun
  have hpos : 0 < (plan steps).batches.length := by rwa [← hinv.commitSeq]
  refine exists_reply hH (plan_ok steps) hinv hpos hkeys fun b hb => ?_
  obtain ⟨tip, digest, hroot, htip⟩ :=
    (hinv.digest _ (Nat.sub_add_cancel hpos)).getRootDigest_run
  have := hblks tip digest hroot b hb
  omega

/-- A request for `a` in one block. -/
def askA (blk : ℕ) : KeyMap := ⟨[(blk, [str "a"])], List.pairwise_singleton _ _⟩

/-- A request for `a` in block 1 is answered with its proofs. -/
theorem getProof_carries_iff_askA :
    ∃ s reply, run hashTwo twoRounds = .ok s ∧ (s.db.reads (getProof hashTwo (askA 1))).1 = .ok reply ∧
      Carries hashTwo s.db.view reply 0 (str "a") 1 := by
  have hcheck : ((run hashTwo twoRounds).toOption.any fun s =>
      0 < s.commitSeq && (getRootDigest.run s.db.view).toOption.any (fun r => r.1 == 1)) = true := by
    decide +kernel
  rcases hrun : run hashTwo twoRounds with e | s
  · rw [hrun] at hcheck
    cases hcheck
  rw [hrun] at hcheck
  obtain ⟨hpos, hcheck⟩ := Bool.and_eq_true_iff.mp hcheck
  have hblks : ∀ tip digest, getRootDigest.run s.db.view = .ok (tip, digest) →
      ∀ b ∈ flatBlocks (askA 1), b ≤ tip := by
    intro tip digest hroot b hb
    rw [hroot] at hcheck
    have htip : tip = 1 := beq_iff_eq.mp hcheck
    rw [htip, List.mem_singleton.mp hb]
  obtain ⟨hiff, hreply⟩ := getProof_carries_iff hashTwo twoRounds s hrun (of_decide_eq_true hpos)
    (askA 1) hblks
  have hkeys : ∀ k ∈ flatKeys (askA 1), Mpt.Ascii k := by
    intro k hk
    rw [List.mem_singleton.mp hk]
    unfold Mpt.Ascii
    decide +kernel
  obtain ⟨reply, hreply⟩ := hreply ascii_twoRounds hashOk_twoRounds.inj hashOk_twoRounds.text hkeys
  refine ⟨s, reply, rfl, hreply, (hiff reply hreply).mpr ?_ 0 _ _ rfl rfl⟩
  intro e he
  rw [List.mem_singleton.mp he]
  exact ⟨le_rfl, fun h => absurd h (by decide)⟩

/-- A request for `a` in block 0 is answered without any proof. -/
theorem getProof_carries_nothing :
    ∃ s reply, run hashTwo twoRounds = .ok s ∧ 0 < s.commitSeq ∧
      (s.db.reads (getProof hashTwo (askA 0))).1 = .ok reply ∧ reply.proof = [] ∧
      (flatKeys (askA 0))[0]? = some (str "a") ∧ (flatBlocks (askA 0))[0]? = some 0 ∧
      ¬ ∃ i, Carries hashTwo s.db.view reply i (str "a") 0 := by
  have hcheck : ((run hashTwo twoRounds).toOption.any fun s => 0 < s.commitSeq &&
      ((s.db.reads (getProof hashTwo (askA 0))).1.toOption.any fun reply =>
        reply.proof == [])) = true := by decide +kernel
  rcases hrun : run hashTwo twoRounds with e | s
  · rw [hrun] at hcheck
    cases hcheck
  rw [hrun] at hcheck
  obtain ⟨hpos, hcheck⟩ := Bool.and_eq_true_iff.mp hcheck
  rcases hreply : (s.db.reads (getProof hashTwo (askA 0))).1 with e | reply
  · rw [hreply] at hcheck
    cases hcheck
  rw [hreply] at hcheck
  have hnil : reply.proof = [] := beq_iff_eq.mp hcheck
  refine ⟨s, reply, rfl, of_decide_eq_true hpos, hreply, hnil, rfl, rfl, ?_⟩
  rintro ⟨i, -, -, -, p, -, -, -, -, hp, -⟩
  rw [hnil] at hp
  cases hp

end LedgerDatabase.Distributed.VersionedKVStore
