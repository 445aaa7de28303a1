import LedgerDatabase.Ledgerdb.Equiv.LedgerDB

/-!
# The chain of commit entries

Every commit entry names a digest of the one before it.  `buildTree` decodes the previous entry
with `FromBase32` where its hash is meant, so the chain is linked (`Linked`) only when the two agree:
`run_linked_iff` for every run, `run_not_linked` for two blocks in two rounds.

The results hold for keys of any bytes: nothing is assumed about tries but that no node is stored
under the key of a commit entry (`PutsApart`).
-/

namespace LedgerDatabase.Ledgerdb

open MerkleTree

/-! ### What `update` writes -/

namespace MerkleTree

variable {H : Bytes → Hash}

theorem prefix_nodeKey (l j : ℕ) : str "mt" <+: nodeKey l j := by
  rw [nodeKey, List.append_assoc, List.append_assoc]
  exact List.prefix_append _ _

theorem prefix_withCommit (l j : ℕ) (commitSeq : Bytes) :
    str "mt" <+: withCommit (nodeKey l j) commitSeq := by
  rw [withCommit, List.append_assoc]
  exact (prefix_nodeKey l j).trans (List.prefix_append _ _)

theorem putLeaves_adds : ∀ (leaves : List Bytes) (n : ℕ) (db : DB),
    SkipList.Adds (str "mt") db (putLeaves db n leaves)
  | [], _, _ => SkipList.Adds.refl _ _
  | leaf :: leaves, n, db =>
    (SkipList.adds_putString db leaf (prefix_nodeKey 0 n)).trans (putLeaves_adds leaves (n + 1) _)

theorem parents_adds (level start : ℕ) (commitSeq : Bytes) : ∀ (hs : List Hash) (i : ℕ)
    (complete : Bool) (db : DB),
    SkipList.Adds (str "mt") db (parents H level start commitSeq i hs complete db).2.2
  | [], _, _, _ => SkipList.Adds.refl _ _
  | [h], _, _, db => SkipList.adds_putString db _ (prefix_withCommit _ _ _)
  | h :: h' :: rest, i, complete, db => by
    rw [parents]
    simp only
    refine (SkipList.adds_putString db _ ?_).trans (parents_adds level start commitSeq rest _ _ _)
    split_ifs
    · exact prefix_withCommit _ _ _
    · exact prefix_nodeKey _ _

theorem levels_adds (prevCommitSeq commitSeq : Bytes) : ∀ (fuel level start : ℕ)
    (prevComplete complete : Bool) (hs : List Hash) (db : DB) {r : ℕ × Bool × List Hash × DB},
    levels H prevCommitSeq commitSeq fuel level start prevComplete complete hs db = .ok r →
    SkipList.Adds (str "mt") db r.2.2.2
  | 0, _, _, _, _, _, _, _, h => by cases h
  | fuel + 1, level, start, prevComplete, complete, hs, db, r, h => by
    rw [levels] at h
    split_ifs at h
    · exact (parents_adds _ _ _ _ _ _ db).trans (levels_adds _ _ fuel _ _ _ _ _ _ h)
    · obtain rfl := Except.ok.inj h
      exact SkipList.Adds.refl _ _

theorem noBar_nextCommitSeq {prevCommitSeq commitSeq : Bytes}
    (h : nextCommitSeq prevCommitSeq = .ok commitSeq) : NoBar commitSeq := by
  rw [nextCommitSeq] at h
  split_ifs at h
  · obtain rfl := Except.ok.inj h
    unfold NoBar
    decide
  · obtain ⟨n, -, h⟩ := bind_eq_ok_iff.mp h
    obtain rfl := Except.ok.inj h
    exact noBar_toDecimal _

/-- **`update`** writes nodes only, and returns fields without bars. -/
theorem update_adds {db db' : DB} {n : ℕ} {leaves : List Bytes} {prevCommitSeq : Bytes}
    {root : Root} (h : update H db n leaves prevCommitSeq = .ok (root, db')) :
    SkipList.Adds (str "mt") db db' ∧ NoBar root.rootKey ∧ NoBar root.rootHash := by
  rw [update] at h
  obtain ⟨commitSeq, hseq, h⟩ := bind_eq_ok_iff.mp h
  obtain ⟨⟨level, complete, hs, db₁⟩, hlevels, h⟩ := bind_eq_ok_iff.mp h
  obtain ⟨rootHash, -, h⟩ := bind_eq_ok_iff.mp h
  obtain ⟨rfl, rfl⟩ := Prod.mk.inj (Except.ok.inj h)
  refine ⟨(putLeaves_adds _ _ _).trans (levels_adds _ _ _ _ _ _ _ _ _ hlevels), ?_,
    noBar_toBase32 _⟩
  have hmt : NoBar (str "mt") := by unfold NoBar; decide
  have hzero : NoBar (str "-0") := by unfold NoBar; decide
  have hdash : NoBar (str "-") := by unfold NoBar; decide
  have hkey := (hmt.append (noBar_toDecimal level)).append hzero
  simp only
  split_ifs
  · exact hkey
  · exact (hkey.append hdash).append (noBar_nextCommitSeq hseq)

end MerkleTree

namespace LedgerDB

/-! ### The chunks of a round -/

/-- The nodes that `Set` on a trie stores. -/
def mptPuts (H : Bytes → Hash) (db : DB) (mptRoot : Option Hash) (ks vs : List Bytes) :
    List (Hash × Bytes) :=
  match (db.reads (Trie.setBatch H (mptRoot.getD (Chunk.hash H MPTNilNode.encode)) ks vs)).1 with
  | .ok r => r.2
  | .error _ => []

/-- The nodes of the trie that a round stores. -/
def roundPuts (H : Bytes → Hash) (s : LedgerDB) (n : ℕ) : List (Hash × Bytes) :=
  match s.treeQueue.take n with
  | [] => []
  | first :: blks =>
    match update H s.db first.blkSeq ((first :: blks).map fun blk => (leafHash H s.db blk).toBase32)
      (prevCommitSeq s.commitSeq) with
    | .error _ => []
    | .ok (_, db) =>
      match prevCommit db s.commitSeq with
      | .error _ => []
      | .ok (mptRoot, _) =>
        mptPuts H db mptRoot ((mptBlks (first :: blks)).map (·.1)) ((mptBlks (first :: blks)).map (·.2))

theorem rocks_reads {α : Type} (p : Reads α) (db : DB) : (db.reads p).2.rocks = db.rocks := by
  induction p generalizing db with
  | done a => rfl
  | fail e => rfl
  | ask q next ih => exact (ih _ (DB.answer q db).2).trans (Mpt.rocks_answer q db)

theorem updateMpt_rocks {H : Bytes → Hash} {db db' : DB} {mptRoot : Option Hash} {ks vs : List Bytes}
    {root : Hash} (h : updateMpt H db mptRoot ks vs = .ok (root, db')) :
    db'.rocks = chunkLog (mptPuts H db mptRoot ks vs) ++ db.rocks := by
  have hputs : ∀ {x : Hash} {r : Hash × List (Hash × Bytes)},
      (db.reads (Trie.setBatch H x ks vs)).1 = .ok r → x = mptRoot.getD (Chunk.hash H MPTNilNode.encode) →
      ((db.reads (Trie.setBatch H x ks vs)).2.putHashes r.2).rocks
        = chunkLog (mptPuts H db mptRoot ks vs) ++ db.rocks := by
    intro x r hr hx
    rw [mptPuts, ← hx, hr, (Mpt.rocks_putHashes _ _).1, rocks_reads]
    rfl
  cases mptRoot with
  | none =>
    obtain ⟨r, hr, h⟩ := bind_eq_ok_iff.mp h
    obtain ⟨node, -, h⟩ := bind_eq_ok_iff.mp h
    obtain ⟨-, rfl⟩ := Prod.mk.inj (Except.ok.inj h)
    exact (rocks_reads _ _).trans (hputs hr rfl)
  | some x =>
    obtain ⟨r, hr, h⟩ := bind_eq_ok_iff.mp h
    obtain ⟨-, rfl⟩ := Prod.mk.inj (Except.ok.inj h)
    exact hputs hr rfl

/-! ### What a round writes -/

/-- **A round** that makes a commit: nodes of the Merkle tree, chunks, the entry, the digest. -/
theorem buildTree_cases {H : Bytes → Hash} {s s' : LedgerDB} {n : ℕ}
    (h : s.buildTree H n = .ok s') :
    (s.treeQueue.take n = [] ∧ s' = s) ∨ (s.treeQueue.take n ≠ [] ∧
      ∃ (ws : List (Bytes × Bytes)) (db₁ : DB) (mptRoot : Option Hash) (info : CommitInfo),
      (∀ w ∈ ws, str "mt" <+: w.1) ∧ db₁ = { s.db with rocks := ws ++ s.db.rocks } ∧
      prevCommit db₁ s.commitSeq = .ok (mptRoot, info.prevDigest) ∧
      (NoBar info.prevDigest → info.Clean) ∧ s'.commitSeq = s.commitSeq + 1 ∧
      s'.db.rocks = (str "digest",
          DigestInfo.toBytes ⟨s.commitSeq, info.tipBlock, (H info.toBytes).toBase32⟩) ::
        (commitKey (toDecimal s.commitSeq), info.toBytes) ::
        (chunkLog (roundPuts H s n) ++ db₁.rocks)) := by
  rw [buildTree] at h
  rcases hb : s.treeQueue.take n with _ | ⟨first, blks⟩
  · rw [hb] at h
    exact Or.inl ⟨rfl, (Except.ok.inj h).symm⟩
  rw [hb] at h
  refine Or.inr ⟨List.cons_ne_nil _ _, ?_⟩
  obtain ⟨db', hcommit, h⟩ := bind_eq_ok_iff.mp h
  obtain rfl := Except.ok.inj h
  rw [commitBlocks] at hcommit
  obtain ⟨⟨root, db₁⟩, hupdate, hcommit⟩ := bind_eq_ok_iff.mp hcommit
  obtain ⟨⟨mptRoot, prevDigest⟩, hprev, hcommit⟩ := bind_eq_ok_iff.mp hcommit
  obtain ⟨⟨newroot, db₂⟩, hmpt, hcommit⟩ := bind_eq_ok_iff.mp hcommit
  obtain rfl := Except.ok.inj hcommit
  obtain ⟨⟨ws, hdb₁, hws⟩, hkey, hhash⟩ := update_adds hupdate
  have hputs : roundPuts H s n = mptPuts H db₁ mptRoot
      ((mptBlks (first :: blks)).map (·.1)) ((mptBlks (first :: blks)).map (·.2)) := by
    simp only [roundPuts, hb, hupdate, hprev]
  refine ⟨ws, db₁, mptRoot, ⟨s.commitSeq, prevDigest, (blks.getLastD first).blkSeq, root.rootHash,
    root.rootKey, newroot.toBase32⟩, hws, hdb₁, hprev,
    fun hbar => ⟨hbar, hhash, hkey, noBar_toBase32 _⟩, rfl, ?_⟩
  rw [hputs, ← updateMpt_rocks hmpt]
  rfl

/-! ### Entries along a run -/

/-- A property of every step of a run and the state before it. -/
def Along (H : Bytes → Hash) (P : LedgerDB → Step → Prop) (steps : List Step) : Prop :=
  ∀ pre st post s, steps = pre ++ st :: post → run H pre = .ok s → P s st

theorem Along.init {H : Bytes → Hash} {P : LedgerDB → Step → Prop} {steps : List Step} {st : Step}
    (h : Along H P (steps ++ [st])) : Along H P steps := by
  intro pre st' post s hsteps
  exact h pre st' (post ++ [st]) s (by rw [hsteps, List.append_assoc, List.cons_append])

/-- No trie node of the step has the key of a commit entry as its hash. -/
def PutsApart (H : Bytes → Hash) (s : LedgerDB) : Step → Prop
  | .set _ _ _ _ => True
  | .build n => ∀ e ∈ roundPuts H s n, ∀ c, e.1.bytes ≠ commitKey (toDecimal c)

/-- Where the step makes a commit after another one, decoding the previous entry gives its hash. -/
def LinkOk (H : Bytes → Hash) (s : LedgerDB) : Step → Prop
  | .set _ _ _ _ => True
  | .build n => s.treeQueue.take n ≠ [] →
    ∀ e, prevEntry s.db s.commitSeq = some e → Hash.fromBase32 e = H e

/-- The entry of every commit but the first names the hash of the one before it. -/
def Linked (H : Bytes → Hash) (s : LedgerDB) : Prop :=
  ∀ c, 0 < c → c < s.commitSeq → ∃ e e' info,
    s.db.getString (commitKey (toDecimal (c - 1))) = some e ∧
    s.db.getString (commitKey (toDecimal c)) = some e' ∧
    CommitInfo.ofString e' = .ok info ∧ info.prevDigest = (H e).toBase32

/-- The digest entry names the hash of the last commit entry. -/
def Published (H : Bytes → Hash) (s : LedgerDB) : Prop :=
  ∀ c, c + 1 = s.commitSeq → ∃ e d,
    s.db.getString (commitKey (toDecimal c)) = some e ∧
    s.db.getString (str "digest") = some d ∧
    (DigestInfo.ofString d).map (·.digest) = .ok (H e).toBase32

/-- The entries as rounds make them. -/
def Entries (s : LedgerDB) : Prop :=
  ∀ c < s.commitSeq, ∃ info : CommitInfo,
    s.db.getString (commitKey (toDecimal c)) = some info.toBytes ∧ info.Clean ∧
    info.prevDigest = prevDigestOf (prevEntry s.db c)

section

variable {H : Bytes → Hash} {s s' : LedgerDB}

/-- The chain of entries is linked where decoding an entry gives its hash. -/
theorem Entries.linked_iff (h : Entries s) :
    Linked H s ↔ ∀ c, 0 < c → c < s.commitSeq →
      ∀ e, prevEntry s.db c = some e → Hash.fromBase32 e = H e := by
  constructor
  · intro hlinked c hpos hc e he
    obtain ⟨e₁, e', info, he₁, he', hparse, hdigest⟩ := hlinked c hpos hc
    obtain ⟨info', hget, hclean, hprev⟩ := h c hc
    rw [prevEntry, if_neg (by omega), he₁] at he
    obtain rfl := Option.some.inj he
    rw [hget] at he'
    obtain rfl := Option.some.inj he'
    rw [CommitInfo.ofString_toBytes hclean] at hparse
    obtain rfl := Except.ok.inj hparse
    rw [hprev, prevEntry, if_neg (by omega), he₁] at hdigest
    exact Hash.toBase32_injective hdigest
  · intro hdecode c hpos hc
    obtain ⟨info', hget', -⟩ := h (c - 1) (by omega)
    obtain ⟨info, hget, hclean, hprev⟩ := h c hc
    have hentry : prevEntry s.db c = some info'.toBytes := by rw [prevEntry, if_neg (by omega), hget']
    refine ⟨_, _, info, hget', hget, CommitInfo.ofString_toBytes hclean, ?_⟩
    rw [hprev, hentry, ← hdecode c hpos hc _ hentry]
    rfl

/-- Entries are kept by writes to other keys. -/
theorem Entries.of_getString (h : Entries s) (hseq : s'.commitSeq = s.commitSeq)
    (hget : ∀ c, s'.db.getString (commitKey (toDecimal c)) = s.db.getString (commitKey (toDecimal c))) :
    Entries s' ∧ (Linked H s' ↔ Linked H s) := by
  have hprev : ∀ c, prevEntry s'.db c = prevEntry s.db c := fun c => by
    rw [prevEntry, prevEntry, hget]
  have hentries : Entries s' := by
    intro c hc
    rw [hget, hprev]
    exact h c (hseq ▸ hc)
  refine ⟨hentries, ?_⟩
  simp only [hentries.linked_iff, h.linked_iff, hprev, hseq]

/-- A call of `Set` leaves the entries and the digest. -/
theorem set_entries {keys values : List Bytes} {timestamp : ℕ} {coins : List (List Bool)} {r : ℕ}
    (hset : s.set keys values timestamp coins = .ok (s', r)) :
    s'.commitSeq = s.commitSeq ∧ s'.db.getString (str "digest") = s.db.getString (str "digest") ∧
    ∀ c, s'.db.getString (commitKey (toDecimal c)) = s.db.getString (commitKey (toDecimal c)) := by
  rcases set_cases hset with ⟨-, rfl⟩ | ⟨-, blkVal, ws, heads, -, hpre, rfl⟩
  · exact ⟨rfl, rfl, fun _ => rfl⟩
  have hkeep : ∀ {k : Bytes} {a : UInt8}, k.head? = some a → a ≠ 115 → a ≠ 108 →
      DB.getString { s.db with rocks := ws ++ [(ledgerKey s.nextBlockSeq, blkVal)] ++ s.db.rocks } k
        = s.db.getString k := by
    intro k a hk hs hl
    apply getString_log
    intro w hw
    rcases List.mem_append.mp hw with hw | hw
    · exact ne_of_head? (head?_skiplist (hpre w hw)) hk (Ne.symm hs)
    · rw [List.mem_singleton.mp hw]
      exact ne_of_head? (head?_ledgerKey _) hk (Ne.symm hl)
  exact ⟨rfl, hkeep head?_digest (by decide) (by decide),
    fun c => hkeep (head?_commitKey _) (by decide) (by decide)⟩

theorem head?_of_mt {key : Bytes} (h : str "mt" <+: key) : key.head? = some 109 := by
  obtain ⟨rest, rfl⟩ := h
  rfl

/-- A round adds its own entry. -/
theorem buildTree_entries {n : ℕ} (h : Entries s) (hapart : PutsApart H s (.build n))
    (hbuild : s.buildTree H n = .ok s') :
    Entries s' ∧ (s.treeQueue.take n ≠ [] → Published H s') ∧
      (Linked H s' ↔ Linked H s ∧ LinkOk H s (.build n)) := by
  rcases buildTree_cases hbuild with
    ⟨hnil, rfl⟩ | ⟨hne, ws, db₁, mptRoot, info, hws, rfl, hprev, hclean, hseq, hrocks⟩
  · exact ⟨h, fun hne => absurd hnil hne,
      ⟨fun hl => ⟨hl, fun hne => absurd hnil hne⟩, fun hl => hl.1⟩⟩
  -- the nodes of the Merkle tree are not entries
  have hget₁ : ∀ c, DB.getString { s.db with rocks := ws ++ s.db.rocks } (commitKey (toDecimal c))
      = s.db.getString (commitKey (toDecimal c)) := fun c =>
    getString_log fun w hw => ne_of_head? (head?_of_mt (hws w hw)) (head?_commitKey _) (by decide)
  have hdigest : ∀ c, commitKey (toDecimal c) ≠ str "digest" := fun c =>
    ne_of_head? (head?_commitKey _) head?_digest (by decide)
  have hget : ∀ c, s'.db.getString (commitKey (toDecimal c))
      = if c = s.commitSeq then some info.toBytes else s.db.getString (commitKey (toDecimal c)) := by
    intro c
    rw [DB.getString, hrocks, StdMap.lookup_cons_ite, if_neg (hdigest c), StdMap.lookup_cons_ite]
    by_cases hc : c = s.commitSeq
    · rw [if_pos (by rw [hc]), if_pos hc]
    · rw [if_neg fun heq => hc (commitKey_inj heq), if_neg hc, ← hget₁ c]
      refine PutLog.lookup_append_of_not_mem fun u hu => ?_
      obtain ⟨e, he, heq⟩ := List.mem_map.mp (List.mem_reverse.mp hu)
      exact hapart e he c (Prod.mk.inj heq).1
  have hprevEntry : ∀ c ≤ s.commitSeq, prevEntry s'.db c = prevEntry s.db c := by
    intro c hc
    rw [prevEntry, prevEntry, hget]
    by_cases hzero : c = 0
    · rw [if_pos hzero, if_pos hzero]
    · rw [if_neg hzero, if_neg hzero, if_neg (by omega)]
  -- the digest that the new entry names
  have hnew : info.prevDigest = prevDigestOf (prevEntry s.db s.commitSeq) := by
    rw [prevCommit] at hprev
    by_cases hpos : s.commitSeq > 0
    · obtain ⟨info', hinfo', hclean', -⟩ := h (s.commitSeq - 1) (by omega)
      rw [if_pos hpos, hget₁, hinfo'] at hprev
      simp only [Option.getD_some, CommitInfo.ofString_toBytes hclean', ok_bind] at hprev
      rw [prevEntry, if_neg (by omega), hinfo']
      exact (Prod.mk.inj (Except.ok.inj hprev)).2.symm
    · rw [if_neg hpos] at hprev
      rw [prevEntry, if_pos (by omega)]
      exact (Prod.mk.inj (Except.ok.inj hprev)).2.symm
  have hentries : Entries s' := by
    intro c hc
    rw [hseq] at hc
    rw [hget, hprevEntry c (by omega)]
    by_cases heq : c = s.commitSeq
    · subst heq
      rw [if_pos rfl]
      exact ⟨info, rfl, hclean (hnew ▸ noBar_prevDigestOf _), hnew⟩
    · rw [if_neg heq]
      exact h c (by omega)
  refine ⟨hentries, fun _ c hc => ?_, ?_⟩
  · obtain rfl : c = s.commitSeq := by omega
    refine ⟨info.toBytes, _, by rw [hget, if_pos rfl],
      (congrArg (List.lookup _) hrocks).trans List.lookup_cons_self, ?_⟩
    rw [DigestInfo.ofString_toBytes (noBar_toBase32 _)]
    rfl
  · rw [hentries.linked_iff, h.linked_iff, hseq]
    constructor
    · intro hall
      refine ⟨fun c hpos hc e he => hall c hpos (by omega) e (hprevEntry c (by omega) ▸ he), ?_⟩
      intro _ e he
      apply hall s.commitSeq _ (by omega) e (hprevEntry _ le_rfl ▸ he)
      -- there is no entry before the first
      by_contra hzero
      rw [prevEntry, if_pos (by omega)] at he
      cases he
    · rintro ⟨hold, hlast⟩ c hpos hc e he
      rw [hprevEntry c (by omega)] at he
      by_cases heq : c = s.commitSeq
      · exact hlast hne e (heq ▸ he)
      · exact hold c hpos (by omega) e he

/-- One step of the run. -/
theorem exec_entries {st : Step} (h : Entries s) (hpub : Published H s) (hapart : PutsApart H s st)
    (hexec : st.exec H s = .ok s') :
    Entries s' ∧ Published H s' ∧ (Linked H s' ↔ Linked H s ∧ LinkOk H s st) := by
  cases st with
  | set keys values timestamp coins =>
    obtain ⟨⟨s₁, r⟩, hset, heq⟩ := bind_eq_ok_iff.mp hexec
    obtain rfl := Except.ok.inj heq
    obtain ⟨hseq, hdigest, hget⟩ := set_entries hset
    obtain ⟨hentries, hlinked⟩ := h.of_getString (H := H) hseq hget
    refine ⟨hentries, fun c hc => ?_, hlinked.trans (and_iff_left trivial).symm⟩
    rw [hget, hdigest]
    exact hpub c (hseq ▸ hc)
  | build n =>
    obtain ⟨hentries, hpub', hlinked⟩ := buildTree_entries h hapart hexec
    refine ⟨hentries, ?_, hlinked⟩
    by_cases hnil : s.treeQueue.take n = []
    · rcases buildTree_cases hexec with ⟨-, rfl⟩ | ⟨hne, -⟩
      · exact hpub
      · exact absurd hnil hne
    · exact hpub' hnil

/-- The entries of a run. -/
theorem run_entries (steps : List Step) (s : LedgerDB)
    (hrun : run H steps = .ok s) (hapart : Along H (PutsApart H) steps) :
    Entries s ∧ Published H s ∧ (Linked H s ↔ Along H (LinkOk H) steps) := by
  induction steps using List.reverseRecOn generalizing s with
  | nil =>
    obtain rfl := Except.ok.inj hrun
    refine ⟨fun c hc => absurd hc (Nat.not_lt_zero c), fun c hc => absurd hc (Nat.succ_ne_zero c),
      fun _ pre st post s hsteps => ?_, fun _ c _ hc => absurd hc (Nat.not_lt_zero c)⟩
    exact absurd hsteps.symm (List.append_ne_nil_of_right_ne_nil _ (List.cons_ne_nil _ _))
  | append_singleton steps st ih =>
    rw [run_append] at hrun
    obtain ⟨s₁, hrun₁, hexec⟩ := bind_eq_ok_iff.mp hrun
    obtain ⟨hentries, hpub, hlinked⟩ := ih s₁ hrun₁ hapart.init
    obtain ⟨hentries', hpub', hlinked'⟩ := exec_entries hentries hpub
      (hapart steps st [] s₁ rfl hrun₁) hexec
    refine ⟨hentries', hpub', ?_⟩
    rw [hlinked', hlinked]
    constructor
    · rintro ⟨hold, hlast⟩ pre st' post s₂ hsteps hpre
      rcases List.eq_nil_or_concat post with rfl | ⟨post, x, rfl⟩
      · obtain ⟨rfl, hst⟩ := List.append_inj' hsteps rfl
        obtain rfl := List.singleton_inj.mp hst
        obtain rfl := Except.ok.inj (hrun₁.symm.trans hpre)
        exact hlast
      · rw [List.concat_eq_append, ← List.cons_append, ← List.append_assoc] at hsteps
        exact hold pre st' post s₂ (List.append_inj_left' hsteps rfl) hpre
    · intro hall
      exact ⟨hall.init, hall steps st [] s₁ rfl hrun₁⟩

/-- **The chain of entries** of every run: the last entry is the published one, and the chain is
linked exactly when every round decodes the hash of the entry before it. -/
theorem run_linked_iff (H : Bytes → Hash) (steps : List Step) (s : LedgerDB)
    (hrun : run H steps = .ok s) (hapart : Along H (PutsApart H) steps) :
    Published H s ∧ (Linked H s ↔ Along H (LinkOk H) steps) :=
  (run_entries steps s hrun hapart).2

end

/-- BLAKE2b on the blocks, nodes and entries of a ledger with two blocks that set `a`. -/
def hashTwo : Bytes → Hash := Hash.ofTable
  [([5, 0, 0, 0, 4], "OU62L3IC44LMMXS3ZENWNLMC264F6BD5"),
    ([26, 0, 0, 0, 1, 1, 0, 0, 0, 0, 0, 0, 0, 3, 0, 0, 0, 6, 1, 16, 6, 0, 0, 0, 3, 49],
      "7W2KQLHIM47VSXOOZQ6HIM4F5G5TN6ZP"),
    ([26, 0, 0, 0, 1, 1, 0, 0, 0, 0, 0, 0, 0, 3, 0, 0, 0, 6, 1, 16, 6, 0, 0, 0, 3, 50],
      "5M46QDXBLMALWJ3MZPRS4TNEMQV7ZI5H"),
    (str "/a|x", "X4SANMECKTOTXE74676UDIEQIMRHPODJ"),
    (str "/a|y", "VOLWD2HI2EELICGUXYUTNETDL4NQLCBT"),
    ((Hash.fromBase32 (str "X4SANMECKTOTXE74676UDIEQIMRHPODJ")).bytes ++
      (Hash.fromBase32 (str "VOLWD2HI2EELICGUXYUTNETDL4NQLCBT")).bytes,
      "MLSIOOVCL4LZK7QZWCRE6A4VLA7QHBU4"),
    (str "0||0|X4SANMECKTOTXE74676UDIEQIMRHPODJ|mt0-0|7W2KQLHIM47VSXOOZQ6HIM4F5G5TN6ZP",
      "KR3EQTLRFH2Y6TYZ3OCO6YXXYTIXEDKJ"),
    (str "1|66667X4SANMECKTOTXE74676UDIEQIMR|1|MLSIOOVCL4LZK7QZWCRE6A4VLA7QHBU4|mt1-0|5M46QDXBLMALWJ3MZPRS4TNEMQV7ZI5H",
      "RMSXPSJDVSIBEVZNG4G3TGAG3BMKSXL5")]

/-- Two blocks, each committed by a round of its own. -/
def twoRounds : List Step :=
  [.set [str "a"] [str "x"] 1 [], .build 1, .set [str "a"] [str "y"] 2 [], .build 1]

theorem ascii_twoRounds : AsciiSteps twoRounds := by
  intro keys values ts coins hmem k hk
  have hkeys : keys = [str "a"] := by
    simp only [twoRounds, List.mem_cons, List.not_mem_nil, or_false, Step.set.injEq,
      reduceCtorEq, false_or] at hmem
    rcases hmem with ⟨rfl, -⟩ | ⟨rfl, -⟩ <;> rfl
  rw [hkeys] at hk
  rw [List.mem_singleton.mp hk]
  unfold Mpt.Ascii
  decide +kernel

theorem hashOk_twoRounds : HashOk hashTwo {c | c ∈ runChunks hashTwo twoRounds} := by
  refine ⟨?_, ?_, List.mem_cons_self⟩
  · have h : ∀ c ∈ runChunks hashTwo twoRounds, ∀ c' ∈ runChunks hashTwo twoRounds,
      hashTwo c = hashTwo c' → c = c' := by decide +kernel
    exact fun c hc c' hc' => h c hc c' hc'
  · have h : ∀ c ∈ runChunks hashTwo twoRounds, (hashTwo c).bytes.head? ∉
      ([some 108, some 99, some 100, some 109, some 115] : List (Option UInt8)) := by
      decide +kernel
    exact fun c hc htext => h c hc htext.head?

theorem along_of_take {H : Bytes → Hash} {P : LedgerDB → Step → Prop} {steps : List Step}
    (h : ∀ i st s, steps[i]? = some st → run H (steps.take i) = .ok s → P s st) :
    Along H P steps := by
  rintro pre st post s rfl hpre
  apply h pre.length st s
  · rw [List.getElem?_append_right le_rfl, Nat.sub_self, List.getElem?_cons_zero]
  · rw [List.take_left]
    exact hpre

theorem apart_twoRounds : Along hashTwo (PutsApart hashTwo) twoRounds := by
  -- no hash of a node starts like the key of an entry
  have hputs : ∀ i < 4, ∀ n ≤ 1, ((run hashTwo (twoRounds.take i)).toOption.all fun s =>
      (roundPuts hashTwo s n).all fun e => e.1.bytes.head? != some 99) = true := by decide +kernel
  apply along_of_take
  intro i st s hst hrun
  have hi : i < 4 := (List.getElem?_eq_some_iff.mp hst).1
  have hapart : ∀ n ≤ 1, PutsApart hashTwo s (.build n) := by
    intro n hn e he c heq
    have hall := hputs i hi n hn
    rw [hrun] at hall
    have hhead := List.all_eq_true.mp hall e he
    rw [heq, head?_commitKey] at hhead
    exact absurd hhead (by decide)
  match i with
  | 0 | 2 =>
    obtain rfl := Option.some.inj hst
    trivial
  | 1 | 3 =>
    obtain rfl := Option.some.inj hst
    exact hapart 1 le_rfl

/-- The ledger is published, and linked only if its rounds decode hashes. -/
theorem run_linked_iff_twoRounds :
    Along hashTwo (PutsApart hashTwo) twoRounds ∧ ∃ s, run hashTwo twoRounds = .ok s ∧
      Published hashTwo s ∧ (Linked hashTwo s ↔ Along hashTwo (LinkOk hashTwo) twoRounds) := by
  refine ⟨apart_twoRounds, ?_⟩
  have hok : (run hashTwo twoRounds).isOk = true := by decide +kernel
  rcases hrun : run hashTwo twoRounds with e | s
  · rw [hrun] at hok
    cases hok
  · exact ⟨s, rfl, run_linked_iff hashTwo twoRounds s hrun apart_twoRounds⟩

/-- Commit 1 does not name the hash of commit 0. -/
theorem run_not_linked :
    ∃ s, run hashTwo twoRounds = .ok s ∧ s.commitSeq = 2 ∧ ¬ Linked hashTwo s := by
  have hok : (run hashTwo twoRounds).isOk = true := by decide +kernel
  have hentry : ((run hashTwo twoRounds).toOption.all fun s => s.commitSeq == 2 &&
      ((s.db.getString (commitKey (toDecimal 0))).all fun e =>
        (s.db.getString (commitKey (toDecimal 1))).all fun e' =>
          (CommitInfo.ofString e').toOption.all fun info =>
            info.prevDigest != (hashTwo e).toBase32)) = true := by decide +kernel
  rcases hrun : run hashTwo twoRounds with e | s
  · rw [hrun] at hok
    cases hok
  · rw [hrun] at hentry
    obtain ⟨hseq, hentry⟩ := Bool.and_eq_true_iff.mp hentry
    have hseq : s.commitSeq = 2 := beq_iff_eq.mp hseq
    refine ⟨s, rfl, hseq, fun hlinked => ?_⟩
    obtain ⟨e, e', info, he, he', hparse, hdigest⟩ := hlinked 1 (by decide) (by rw [hseq]; decide)
    rw [he, he'] at hentry
    simp only [Option.all_some, hparse, Except.toOption, hdigest, bne_self_eq_false,
      Bool.false_eq_true] at hentry

end LedgerDB

end LedgerDatabase.Ledgerdb
