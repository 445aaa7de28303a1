import LedgerDatabase.Ledgerdb.Equiv.Audit
import LedgerDatabase.Ledgerdb.Equiv.GetProofs
import LedgerDatabase.Ledgerdb.Equiv.HashChain

/-!
# Audits of an honest ledger

`GetAudit` reads the commits up to the number of the last *block*, and the entries name a decoded
text where the auditor expects a hash.  `getAudit_runIn` says what an audit of commit `seq` consists
of, `Replayed` which stores an auditor can have, and `audit_complete_iff` when the audit passes: as
long as every commit covers one block, and the entries from `seq` on are decoded to their hashes.
-/

namespace LedgerDatabase.Ledgerdb.LedgerDB

open Mpt MerkleTree

/-! ### Stored blocks -/

/-- A block as `Set` stores it, with ASCII keys. -/
def BlockVal (v : Bytes) : Prop :=
  ∃ keys values, keys.length ≠ 0 ∧ (∀ k ∈ keys, Ascii k) ∧ BlockData.toBytes ⟨keys, values⟩ = .ok v

/-- A stored block is a slash, a key, a bar, and more. -/
theorem BlockVal.eq {v : Bytes} (h : BlockVal v) :
    ∃ key rest, Ascii key ∧ v = (47 :: key) ++ 124 :: rest := by
  obtain ⟨keys, values, hne, hascii, hv⟩ := h
  obtain ⟨res, hjoin, hv⟩ := bind_eq_ok_iff.mp hv
  obtain ⟨-, -, hv⟩ := bind_eq_ok_iff.mp hv
  obtain rfl := Except.ok.inj hv
  cases keys with
  | nil => exact absurd rfl hne
  | cons key keys =>
    cases values with
    | nil => cases hjoin
    | cons val values =>
      obtain ⟨rest, -, hjoin⟩ := bind_eq_ok_iff.mp hjoin
      obtain rfl := Except.ok.inj hjoin
      exact ⟨key, val ++ rest, hascii key List.mem_cons_self,
        by simp [show str "/" = [47] from rfl, show str "|" = [124] from rfl]⟩

/-- A stored block can be parsed, and the keys that come out are ASCII. -/
theorem BlockVal.ofString {v : Bytes} (h : BlockVal v) :
    ∃ binfo, BlockData.ofString v = .ok binfo ∧ ∀ k ∈ binfo.keys, Ascii k := by
  obtain ⟨key, rest, hkey, rfl⟩ := h.eq
  set v := (47 :: key) ++ 124 :: rest
  obtain ⟨item, items, hfirst⟩ := List.exists_cons_of_ne_nil (splitBy_ne_nil (47 :: key) 124)
  obtain ⟨item', items', hsecond⟩ := List.exists_cons_of_ne_nil
    (List.append_ne_nil_of_right_ne_nil items (splitBy_ne_nil rest 124))
  have hsplit : splitBy v 124 = item :: item' :: items' := by
    rw [splitBy_append, hfirst, List.cons_append, hsecond]
  have hitem : Ascii item := by
    intro b hb
    have hmem : item ∈ splitBy (47 :: key) 124 := by rw [hfirst]; exact List.mem_cons_self
    rcases List.mem_cons.mp (subset_of_mem_splitBy hmem hb) with rfl | hb
    · decide
    · exact hkey b hb
  refine ⟨⟨((splitBy v 47).map fun _ => (item, item')).map (·.1),
    ((splitBy v 47).map fun _ => (item, item')).map (·.2)⟩, ?_, ?_⟩
  · rw [BlockData.ofString]
    have hmap : ∀ pieces : List Bytes, (pieces.mapM fun _ => (do
        return (← at? (splitBy v 124) 0, ← at? (splitBy v 124) 1) : Except Fault (Bytes × Bytes)))
        = .ok (pieces.map fun _ => (item, item')) := by
      intro pieces
      induction pieces with
      | nil => rfl
      | cons piece pieces ih =>
        rw [List.mapM_cons, ih, hsplit]
        rfl
    rw [hmap, ok_bind]
    rfl
  · intro k hk
    rw [List.map_map] at hk
    obtain ⟨piece, -, rfl⟩ := List.mem_map.mp hk
    exact hitem

section

variable {H : Bytes → Hash} {S : Set Bytes} {p : Plan} {vals : List Bytes} {s : LedgerDB}

/-- There are at least as many blocks as commits. -/
theorem length_le_flatten {batches : List (List TreeBlock)} (h : ∀ b ∈ batches, b ≠ []) :
    batches.length ≤ batches.flatten.length ∧
      (batches.flatten.length = batches.length ↔ ∀ b ∈ batches, b.length = 1) := by
  induction batches with
  | nil => simp
  | cons b batches ih =>
    obtain ⟨hle, hiff⟩ := ih fun b hb => h b (List.mem_cons_of_mem _ hb)
    have hpos : 0 < b.length := List.length_pos_iff.mpr (h b List.mem_cons_self)
    rw [List.flatten_cons, List.length_append, List.length_cons, List.forall_mem_cons, ← hiff]
    omega

/-- The stored blocks are determined by the store. -/
theorem Inv.vals_eq {vals' : List Bytes} (h : Inv H S p vals s) (h' : Inv H S p vals' s) :
    vals = vals' := by
  apply List.ext_getElem
  · rw [h.length_vals, h'.length_vals]
  · intro i hi hi'
    have hget := h.ledger i vals[i] (List.getElem?_eq_getElem hi)
    rw [h'.ledger i vals'[i] (List.getElem?_eq_getElem hi')] at hget
    exact (Option.some.inj hget).symm

/-! ### The blocks of a run -/

/-- A step only adds blocks. -/
theorem exec_grow (hH : HashOk H S) {steps : List Step} {st : Step}
    (hascii : AsciiSteps (steps ++ [st]))
    (hchunks : ∀ t ∈ batchTrees .nil (plan (steps ++ [st])).batches, Chunks H S t)
    (h : Inv H S (plan steps) vals s) (hvals : ∀ v ∈ vals, BlockVal v) {s' : LedgerDB}
    (hexec : st.exec H s = .ok s') :
    ∃ vals', vals <+: vals' ∧ Inv H S (plan (steps ++ [st])) vals' s' ∧ ∀ v ∈ vals', BlockVal v := by
  have hascii' : AsciiSteps steps := fun keys values ts coins hmem =>
    hascii keys values ts coins (List.mem_append_left _ hmem)
  cases st with
  | set keys values timestamp coins =>
    obtain ⟨⟨s₁, r⟩, hset, heq⟩ := bind_eq_ok_iff.mp hexec
    obtain rfl := Except.ok.inj heq
    obtain ⟨vals', hinv, hcase⟩ := set_inv hH (plan_ok steps) h hset
    rw [← plan_append] at hinv
    refine ⟨vals', ?_, hinv, ?_⟩
    · rcases hcase with rfl | ⟨-, blkVal, -, rfl⟩
      · exact List.prefix_refl _
      · exact List.prefix_append _ _
    · rcases hcase with rfl | ⟨hne, blkVal, hval, rfl⟩
      · exact hvals
      · intro v hv
        rcases List.mem_append.mp hv with hv | hv
        · exact hvals v hv
        · rw [List.mem_singleton.mp hv]
          exact ⟨keys, values, hne, hascii keys values timestamp coins
            (List.mem_append_right _ (List.mem_singleton_self _)), hval⟩
  | build n =>
    refine ⟨vals, List.prefix_refl _, ?_, hvals⟩
    rw [plan_append]
    rcases buildTree_inv hH (plan_ok steps) h n
      (fun blk hblk => ascii_plan hascii' blk (List.mem_append_right _ hblk))
      (chunks_setTrace hchunks) with
      ⟨herr, -⟩ | ⟨s₁, hok, hinv, -⟩
    · rw [Step.exec, herr] at hexec
      cases hexec
    · obtain rfl := Except.ok.inj (hok.symm.trans hexec)
      exact hinv

/-- The steps after some others only add blocks. -/
theorem run_grow (hH : HashOk H S) {pre : List Step} {s₀ : LedgerDB} (hpre : run H pre = .ok s₀)
    (h : Inv H S (plan pre) vals s₀) (hvals : ∀ v ∈ vals, BlockVal v) : ∀ (post : List Step)
    {s : LedgerDB}, AsciiSteps (pre ++ post) →
    (∀ t ∈ batchTrees .nil (plan (pre ++ post)).batches, Chunks H S t) →
    run H (pre ++ post) = .ok s →
    ∃ vals', vals <+: vals' ∧ Inv H S (plan (pre ++ post)) vals' s ∧ ∀ v ∈ vals', BlockVal v := by
  intro post
  induction post using List.reverseRecOn with
  | nil =>
    intro s _ _ hrun
    rw [List.append_nil] at hrun ⊢
    obtain rfl := Except.ok.inj (hpre.symm.trans hrun)
    exact ⟨vals, List.prefix_refl _, h, hvals⟩
  | append_singleton post st ih =>
    intro s hascii hchunks hrun
    rw [← List.append_assoc] at hascii hchunks hrun ⊢
    rw [run_append] at hrun
    obtain ⟨s₁, hrun₁, hexec⟩ := bind_eq_ok_iff.mp hrun
    obtain ⟨vals₁, hpre₁, hinv₁, hvals₁⟩ := ih
      (fun keys values ts coins hmem => hascii keys values ts coins (List.mem_append_left _ hmem))
      (fun t ht => hchunks t (batchTrees_subset _ st ht)) hrun₁
    obtain ⟨vals₂, hpre₂, hinv₂, hvals₂⟩ := exec_grow hH hascii hchunks hinv₁ hvals₁ hexec
    exact ⟨vals₂, hpre₁.trans hpre₂, hinv₂, hvals₂⟩

/-- The blocks of a run are as `Set` stores them. -/
theorem run_blocks (hH : HashOk H S) {steps : List Step} (hascii : AsciiSteps steps)
    (hchunks : ∀ t ∈ batchTrees .nil (plan steps).batches, Chunks H S t)
    (hrun : run H steps = .ok s) :
    ∃ vals, Inv H S (plan steps) vals s ∧ ∀ v ∈ vals, BlockVal v := by
  have hempty : run H [] = .ok {} := rfl
  obtain ⟨vals, -, hinv, hvals⟩ := run_grow hH hempty inv_empty
    (fun v hv => absurd hv List.not_mem_nil) steps hascii hchunks hrun
  exact ⟨vals, hinv, hvals⟩

/-! ### `GetAudit` -/

/-- The stored entry of a commit, empty when there is none. -/
def entryOf (db : DB) (c : ℕ) : Bytes := (db.getString (commitKey (toDecimal c))).getD []

/-- The audit of commit `seq`. -/
structure AuditOf (H : Bytes → Hash) (vals : List Bytes) (batches : List (List TreeBlock)) (seq : ℕ)
    (db : DB) (a : Auditor) : Prop where
  digest : a.digest = (H (entryOf db (batches.length - 1))).toBase32
  firstBlockSeq : a.firstBlockSeq = (batches.take seq).flatten.length
  commits : a.commits = (List.range' seq (batches.flatten.length - seq)).map (entryOf db)
  blocks : a.blocks
    = (vals.take (batches.take (seq + 1)).flatten.length).drop (batches.take seq).flatten.length

theorem readAll_runIn (db : DB) : ∀ keys : List Bytes,
    (readAll keys).runIn (knowStore H S db) = some (.ok (keys.map fun k => (db.getString k).getD []))
  | [] => rfl
  | key :: keys => by
    have hread : (readString key).runIn (knowStore H S db) = some (.ok ((db.getString key).getD [])) :=
      rfl
    rw [readAll, Ask.runIn_bind_ok _ _ hread, Ask.runIn_bind_ok _ _ (readAll_runIn db keys)]
    rfl

theorem auditKeys_runIn {know : Query → Option (Option Bytes)} {t : Tree} (h : Version H S know t) :
    ∀ {keys : List Bytes}, (∀ k ∈ keys, Ascii k) →
    ∃ proofs, (auditKeys (enc H t) keys).runIn know = some (.ok proofs)
  | [], _ => ⟨[], rfl⟩
  | key :: keys, hkeys => by
    have hproof : ∃ proof, (Trie.getProof (enc H t) key).runIn know = some (.ok proof) :=
      ⟨_, getProof_runIn h.wf h.good.fits h.known (hkeys key List.mem_cons_self)⟩
    obtain ⟨proof, hproof⟩ := hproof
    obtain ⟨proofs, hproofs⟩ := auditKeys_runIn h fun k hk => hkeys k (List.mem_cons_of_mem _ hk)
    refine ⟨proof :: proofs, ?_⟩
    rw [auditKeys, Ask.runIn_bind_ok _ _ hproof, Ask.runIn_bind_ok _ _ hproofs]
    rfl

/-- The blocks of an audit are those that are stored. -/
theorem auditBlocks_runIn {t : Tree} {db : DB} (ht : Version H S (knowStore H S db) t)
    (hvals : ∀ v ∈ vals, BlockVal v)
    (hledger : ∀ i v, vals[i]? = some v → db.getString (ledgerKey i) = some v) :
    ∀ (n first : ℕ), first + n ≤ vals.length →
    ∃ proofs, (auditBlocks (enc H t) (List.range' first n)).runIn (knowStore H S db)
      = some (.ok ((vals.take (first + n)).drop first, proofs))
  | 0, first, _ => ⟨[], by simp [auditBlocks]⟩
  | n + 1, first, hle => by
    have hlt : first < vals.length := by omega
    have hget := hledger first vals[first] (List.getElem?_eq_getElem hlt)
    have hread : (readString (ledgerKey first)).runIn (knowStore H S db) = some (.ok vals[first]) :=
      readString_runIn (congrArg some hget)
    obtain ⟨binfo, hparse, hkeys⟩ := (hvals _ (List.getElem_mem hlt)).ofString
    obtain ⟨proofs, hproofs⟩ := auditKeys_runIn ht hkeys
    obtain ⟨proofs', hrest⟩ := auditBlocks_runIn ht hvals hledger n (first + 1) (by omega)
    refine ⟨proofs ++ proofs', ?_⟩
    rw [List.range'_succ, auditBlocks, Ask.runIn_bind_ok _ _ hread,
      Ask.runIn_ofExcept_bind_ok _ _ hparse, Ask.runIn_bind_ok _ _ hproofs,
      Ask.runIn_bind_ok _ _ hrest]
    have hdrop : (vals.take (first + (n + 1))).drop first
        = vals[first] :: (vals.take (first + 1 + n)).drop (first + 1) := by
      rw [show first + (n + 1) = first + 1 + n by omega,
        List.drop_eq_getElem_cons (by rw [List.length_take]; omega), List.getElem_take]
    rw [hdrop]
    rfl

section

variable {batches : List (List TreeBlock)} {db : DB}

/-- The first block of a commit. -/
theorem Served.firstBlockOf_runIn (h : Served H S vals batches db) {seq : ℕ}
    (hseq : seq < batches.length) :
    (firstBlockOf seq).runIn (knowStore H S db) = some (.ok (batches.take seq).flatten.length) := by
  rw [firstBlockOf]
  split_ifs with hpos
  · obtain ⟨info, hget, hinfo⟩ := (h.commits (seq - 1) (by omega)).entry
    rw [Nat.sub_add_cancel hpos] at hinfo
    have hread : (readString (commitKey (toDecimal (seq - 1)))).runIn (knowStore H S db)
        = some (.ok info.toBytes) := readString_runIn (congrArg some hget)
    rw [Ask.runIn_bind_ok _ _ hread,
      Ask.runIn_ofExcept_bind_ok _ _ (CommitInfo.ofString_toBytes hinfo.clean), ← hinfo.tipBlock]
    rfl
  · obtain rfl : seq = 0 := by omega
    rfl

/-- **`GetAudit`** of a commit. -/
theorem Served.getAudit_runIn (hH : HashOk H S) (h : Served H S vals batches db)
    (hvals : ∀ v ∈ vals, BlockVal v) {seq : ℕ} (hseq : seq < batches.length) :
    ∃ a, (getAudit H seq).runIn (knowStore H S db) = some (.ok a) ∧
      AuditOf H vals batches seq db a := by
  have hlast : batches.length - 1 + 1 = batches.length := by omega
  obtain ⟨d, hd, hbar, -, htip, e, he, hdig⟩ := h.digest _ hlast
  obtain ⟨info, hknows⟩ := h.knows hH hseq
  have hlen := h.length_le
  have hmono : (batches.take seq).flatten.length ≤ (batches.take (seq + 1)).flatten.length := by
    have := length_flatten_take_le (batches.take (seq + 1)) seq
    rwa [List.take_take, Nat.min_eq_left (Nat.le_succ _)] at this
  have hle := length_flatten_take_le batches (seq + 1)
  have hcommits : batches.length ≤ batches.flatten.length := (length_le_flatten h.nonempty).1
  have hread : (readString (str "digest")).runIn (knowStore H S db) = some (.ok d.toBytes) :=
    readString_runIn (congrArg some hd)
  have hall := readAll_runIn (H := H) (S := S) db
    ((List.range' seq (d.tipBlock + 1 - seq)).map fun i => commitKey (toDecimal i))
  have hentry : (db.getString (commitKey (toDecimal seq))).getD [] = info.toBytes := by
    rw [Option.some.inj hknows.entry]
    rfl
  have hhead : ((((List.range' seq (d.tipBlock + 1 - seq)).map fun i => commitKey (toDecimal i)).map
      fun k => (db.getString k).getD []).head?.getD []) = info.toBytes := by
    obtain ⟨n, hn⟩ : ∃ n, d.tipBlock + 1 - seq = n + 1 := ⟨d.tipBlock - seq, by omega⟩
    rw [hn, List.range'_succ]
    exact hentry
  obtain ⟨-, hparse, hopen⟩ := hknows.open_runIn hH.inj hH.nil
  have hg : (batches.take seq).flatten.length
      + (info.tipBlock + 1 - (batches.take seq).flatten.length)
      = (batches.take (seq + 1)).flatten.length := by
    rw [hknows.info.tipBlock]
    omega
  obtain ⟨proofs, hblocks⟩ := auditBlocks_runIn hknows.trie hvals h.ledger
    (info.tipBlock + 1 - (batches.take seq).flatten.length) (batches.take seq).flatten.length
    (by rw [hg]; omega)
  rw [hg] at hblocks
  refine ⟨⟨d.digest, info.commitSeq, (batches.take seq).flatten.length,
    ((List.range' seq (d.tipBlock + 1 - seq)).map fun i => commitKey (toDecimal i)).map
      fun k => (db.getString k).getD [],
    (vals.take (batches.take (seq + 1)).flatten.length).drop (batches.take seq).flatten.length,
    proofs⟩, ?_, ?_, rfl, ?_, rfl⟩
  · rw [getAudit, Ask.runIn_bind_ok _ _ hread,
      Ask.runIn_ofExcept_bind_ok _ _ (DigestInfo.ofString_toBytes hbar), Ask.runIn_bind_ok _ _ hall,
      hhead, Ask.runIn_ofExcept_bind_ok _ _ hparse, Ask.runIn_bind_ok _ _ (h.firstBlockOf_runIn hseq),
      Ask.runIn_bind_ok _ _ hopen, Ask.runIn_bind_ok _ _ hblocks]
    rfl
  · rw [hdig, entryOf, he]
    rfl
  · simp only [htip, List.map_map]
    rfl

end

/-! ### The store of an auditor -/

/-- The stores of an auditor who started with an empty one and has audited the commits below `seq`,
each of them at some time of the run. -/
inductive Replayed (H : Bytes → Hash) (steps : List Step) : ℕ → DB → Prop
  | start : Replayed H steps 0 {}
  | next {seq : ℕ} {adb adb' : DB} {pre post : List Step} {s : LedgerDB} {a : Auditor} :
    Replayed H steps seq adb → steps = pre ++ post → run H pre = .ok s → seq < s.commitSeq →
    (s.db.reads (getAudit H seq)).1 = .ok a → a.audit H adb = .ok (true, adb') →
    Replayed H steps (seq + 1) adb'

/-- The auditor has what is needed to go on with the given batches. -/
def Ready (H : Bytes → Hash) (vals : List Bytes) (batches : List (List TreeBlock)) (adb : DB) :
    Prop :=
  ∀ new, HasFinal H (leavesOf H vals batches ++ new) (leavesOf H vals batches).length adb

theorem leavesOf_take_succ (H : Bytes → Hash) (vals : List Bytes) (batches : List (List TreeBlock))
    (seq : ℕ) :
    leavesOf H vals (batches.take (seq + 1)) = leavesOf H vals (batches.take seq) ++
      ((vals.take (batches.take (seq + 1)).flatten.length).drop
        (batches.take seq).flatten.length).map H := by
  have hle := length_flatten_take_le (batches.take (seq + 1)) seq
  rw [List.take_take, Nat.min_eq_left (Nat.le_succ _)] at hle
  rw [leavesOf, leavesOf, ← List.map_append]
  congr 1
  have hsplit := List.take_append_drop (batches.take seq).flatten.length
    (vals.take (batches.take (seq + 1)).flatten.length)
  rw [List.take_take, Nat.min_eq_left hle] at hsplit
  exact hsplit.symm

/-- **The root that an audit recomputes** is the one of the commit, and the auditor can go on. -/
theorem AuditOf.update {db : DB} {a : Auditor} {seq : ℕ} (h : AuditOf H vals p.batches seq db a)
    (hp : p.Ok) (hseq : seq < p.batches.length) (hvals : vals.length = p.count) {adb : DB}
    (hready : Ready H vals (p.batches.take seq) adb) :
    ∃ adb', update H adb a.firstBlockSeq (a.blocks.map fun b => (H b).toBase32) (prevCommitSeq seq)
        = .ok (rootOf H (leavesOf H vals (p.batches.take (seq + 1))) seq, adb') ∧
      Ready H vals (p.batches.take (seq + 1)) adb' := by
  have hcount := hp.length_le
  have hle : ∀ c, (p.batches.take c).flatten.length ≤ vals.length := fun c => by
    have := length_flatten_take_le p.batches c
    omega
  have hfirst : a.firstBlockSeq = (leavesOf H vals (p.batches.take seq)).length := by
    rw [h.firstBlockSeq, length_leavesOf (hle seq)]
  have hgrow : (p.batches.take seq).flatten.length < (p.batches.take (seq + 1)).flatten.length := by
    rw [List.take_succ_eq_append_getElem hseq, List.flatten_append, List.flatten_singleton,
      List.length_append]
    have := List.length_pos_iff.mpr (hp.nonempty _ (List.getElem_mem hseq))
    omega
  have hne : a.blocks.map H ≠ [] := by
    rw [← List.length_pos_iff, List.length_map, h.blocks, List.length_drop, List.length_take]
    have := hle (seq + 1)
    omega
  have hleaves := leavesOf_take_succ H vals p.batches seq
  rw [← h.blocks] at hleaves
  obtain ⟨ws, hupdate, hws⟩ := update_spec H hne seq (hready (a.blocks.map H))
  rw [← hleaves] at hupdate hws
  refine ⟨{ adb with rocks := ws ++ adb.rocks }, ?_, ?_⟩
  · rw [hfirst, ← hupdate, List.map_map]
    rfl
  · have hfinal := hready (a.blocks.map H)
    rw [← hleaves] at hfinal
    have hcommitted := committed_append H hfinal hws (by rw [hleaves, List.length_append]; omega)
    exact fun new => hcommitted.hasFinal H new

/-- The oldest commit of an audit is the one that is audited. -/
theorem AuditOf.head? {db : DB} {a : Auditor} {seq : ℕ} (h : AuditOf H vals p.batches seq db a)
    (hp : p.Ok) (hseq : seq < p.batches.length) : a.commits.head? = some (entryOf db seq) := by
  have hlen := (length_le_flatten hp.nonempty).1
  obtain ⟨n, hn⟩ : ∃ n, p.batches.flatten.length - seq = n + 1 :=
    ⟨p.batches.flatten.length - seq - 1, by omega⟩
  rw [h.commits, hn, List.range'_succ]
  rfl

/-- What the auditor keeps of the commit. -/
theorem AuditOf.oldestOf {a : Auditor} {seq : ℕ} (h : AuditOf H vals p.batches seq s.db a)
    (hp : p.Ok) (hinv : Inv H S p vals s) (hseq : seq < p.batches.length) :
    a.oldestOf.prevCommitSeq = prevCommitSeq seq ∧
      a.oldestOf.mtroot = (rootOf H (leavesOf H vals (p.batches.take (seq + 1))) seq).rootHash := by
  obtain ⟨info, hget, hinfo⟩ := (hinv.commits seq hseq).entry
  have hparse : CommitInfo.ofString (entryOf s.db seq) = .ok info := by
    rw [entryOf, hget, Option.getD_some, CommitInfo.ofString_toBytes hinfo.clean]
  rw [Auditor.oldestOf, h.head? hp hseq]
  simp only [hparse]
  exact ⟨by rw [Auditor.Oldest.ofInfo, hinfo.commitSeq], hinfo.mtroot⟩

theorem prefix_batches (pre post : List Step) :
    (plan pre).batches <+: (plan (pre ++ post)).batches := by
  induction post using List.reverseRecOn with
  | nil =>
    rw [List.append_nil]
  | append_singleton post st ih =>
    rw [← List.append_assoc, plan_append]
    refine ih.trans ?_
    cases st with
    | set keys values timestamp coins =>
      rw [Plan.step]
      split_ifs <;> exact List.prefix_refl _
    | build n =>
      rw [Plan.step]
      split_ifs
      · exact List.prefix_refl _
      · exact List.prefix_append _ _

theorem take_eq_of_prefix {α : Type} {xs ys : List α} (h : xs <+: ys) {n : ℕ} (hn : n ≤ xs.length) :
    xs.take n = ys.take n := by
  obtain ⟨zs, rfl⟩ := h
  rw [List.take_append_of_le_length hn]

/-- An auditor of the commits below `seq` is ready for commit `seq`. -/
theorem Replayed.ready (hH : HashOk H S) {steps : List Step} (hascii : AsciiSteps steps)
    (hchunks : ∀ t ∈ batchTrees .nil (plan steps).batches, Chunks H S t)
    (hrun : run H steps = .ok s) (hinv : Inv H S (plan steps) vals s) {seq : ℕ} {adb : DB}
    (h : Replayed H steps seq adb) : Ready H vals ((plan steps).batches.take seq) adb := by
  induction h with
  | start =>
    intro new
    exact hasFinal_zero H _ _
  | @next seq adb adb' pre post s' a _ hsteps hpre hseq hget haudit ih =>
    -- the state of the ledger when commit `seq` was audited
    have hascii' : AsciiSteps pre := fun keys values ts coins hmem =>
      hascii keys values ts coins (hsteps ▸ List.mem_append_left _ hmem)
    have hchunks' : ∀ t ∈ batchTrees .nil (plan pre).batches, Chunks H S t := fun t ht =>
      hchunks t (hsteps ▸ batchTrees_subset_append pre post ht)
    obtain ⟨vals', hinv', hvals'⟩ := run_blocks hH hascii' hchunks' hpre
    obtain ⟨vals₂, hgrow, hinv₂, -⟩ := run_grow hH hpre hinv' hvals' post (hsteps ▸ hascii)
      (hsteps ▸ hchunks) (hsteps ▸ hrun)
    rw [← hsteps] at hinv₂
    have hsame : vals₂ = vals := hinv₂.vals_eq hinv
    subst hsame
    have hlt : seq < (plan pre).batches.length := by rwa [← hinv'.commitSeq]
    have hbatches : ∀ c ≤ seq + 1, (plan pre).batches.take c = (plan steps).batches.take c :=
      fun c hc => take_eq_of_prefix (hsteps ▸ prefix_batches pre post) (by omega)
    have hleaves : ∀ c ≤ seq + 1, leavesOf H vals' ((plan pre).batches.take c)
        = leavesOf H vals₂ ((plan steps).batches.take c) := by
      intro c hc
      have hle := length_flatten_take_le (plan pre).batches c
      have hcount := (plan_ok pre).length_le
      rw [hbatches c hc, leavesOf, leavesOf, take_eq_of_prefix hgrow]
      rw [← hbatches c hc, hinv'.length_vals]
      omega
    obtain ⟨a', ha', hof⟩ := (hinv'.served (plan_ok pre)).getAudit_runIn hH hvals' hlt
    rw [(hinv'.store.reads_of_runIn hH.inj ha').1] at hget
    obtain rfl := Except.ok.inj hget
    have hready : Ready H vals' ((plan pre).batches.take seq) adb := by
      rw [Ready, hleaves seq (Nat.le_succ _)]
      exact ih
    obtain ⟨adb₁, hupdate, hready'⟩ := hof.update (plan_ok pre) hlt hinv'.length_vals hready
    -- the audit wrote what `update` writes
    obtain ⟨walked, hwalk, haudit⟩ := bind_eq_ok_iff.mp haudit
    cases walked with
    | none => cases haudit
    | some oldest =>
      obtain ⟨⟨root, adb₂⟩, hup, haudit⟩ := bind_eq_ok_iff.mp haudit
      obtain ⟨res, -, haudit⟩ := bind_eq_ok_iff.mp haudit
      obtain ⟨-, rfl⟩ := Prod.mk.inj (Except.ok.inj haudit)
      obtain ⟨-, -, rfl⟩ := (Auditor.walkCommits_reverse_iff a' oldest).mp hwalk
      rw [(hof.oldestOf (plan_ok pre) hinv' hlt).1, hupdate] at hup
      obtain ⟨-, rfl⟩ := Prod.mk.inj (Except.ok.inj hup)
      rw [Ready, hleaves (seq + 1) le_rfl] at hready'
      exact hready'

/-! ### When an audit passes -/

/-- The nodes that a round of an ASCII run stores are not under keys of entries. -/
theorem Inv.putsApart (hH : HashOk H S) (hp : p.Ok) (h : Inv H S p vals s) {n : ℕ}
    (hascii : ∀ blk ∈ p.queue, ∀ k ∈ blk.mptKs, Ascii k)
    (hchunks : ∀ t ∈ setTrace (treeOf p.batches) (mptBlks (p.queue.take n)), Chunks H S t)
    {s' : LedgerDB} (hbuild : s.buildTree H n = .ok s') : PutsApart H s (.build n) := by
  intro e he c
  rcases buildTree_cases hbuild with ⟨hnil, -⟩ | ⟨hne, ws, db₁, mptRoot, info, -, rfl, -, -, -, hrocks⟩
  · rw [roundPuts, hnil] at he
    exact absurd he List.not_mem_nil
  rcases buildTree_inv hH hp h n hascii hchunks with ⟨herr, -⟩ | ⟨s₁, hok, -, hround⟩
  · rw [herr] at hbuild
    cases hbuild
  obtain rfl := Except.ok.inj (hok.symm.trans hbuild)
  obtain ⟨ws', info', d', hlog, -, hws'⟩ := (hround (by rwa [← h.queue])).log
  -- the two descriptions of the log
  rw [hrocks] at hlog
  have htail := (List.cons.inj (List.cons.inj hlog).2).2
  rw [← List.append_assoc] at htail
  have hsame := List.append_cancel_right htail
  have hmem : (e.1.bytes, e.2) ∈ ws' := by
    rw [← hsame]
    apply List.mem_append_left
    exact List.mem_reverse.mpr (List.mem_map.mpr ⟨e, he, rfl⟩)
  rcases hws' _ hmem with hchunk | ⟨l, j, v, -, -, hnode⟩
  · exact hchunk.ne_text hH (.commit c)
  · intro heq
    exact ne_of_head? (head?_keyOf l j _) (head?_commitKey _) (by decide)
      ((congrArg Prod.fst hnode).symm.trans heq)

theorem along_putsApart (hH : HashOk H S) {steps : List Step} (hascii : AsciiSteps steps)
    (hchunks : ∀ t ∈ batchTrees .nil (plan steps).batches, Chunks H S t)
    (hrun : run H steps = .ok s) : Along H (PutsApart H) steps := by
  intro pre st post s₁ hsteps hpre
  cases st with
  | set keys values timestamp coins => trivial
  | build n =>
    have hascii' : AsciiSteps pre := fun keys values ts coins hmem =>
      hascii keys values ts coins (hsteps ▸ List.mem_append_left _ hmem)
    have hpre' : steps = (pre ++ [.build n]) ++ post := by
      rw [hsteps, List.append_assoc]
      rfl
    have hsub : ∀ t ∈ batchTrees .nil (plan (pre ++ [.build n])).batches, Chunks H S t := fun t ht =>
      hchunks t (hpre' ▸ batchTrees_subset_append _ post ht)
    obtain ⟨vals, hinv, -⟩ := run_blocks hH hascii'
      (fun t ht => hsub t (batchTrees_subset_append pre [.build n] ht)) hpre
    have hbuild : ∃ s', s₁.buildTree H n = .ok s' := by
      cases hb : s₁.buildTree H n with
      | ok s' => exact ⟨s', rfl⟩
      | error e =>
        have hexec : Step.exec H s₁ (.build n) = .error e := hb
        rw [hsteps, run_eq_error hpre hexec] at hrun
        cases hrun
    obtain ⟨s', hbuild⟩ := hbuild
    exact hinv.putsApart hH (plan_ok pre)
      (fun blk hblk => ascii_plan hascii' blk (List.mem_append_right _ hblk))
      (chunks_setTrace hsub) hbuild

/-- The entries from commit `seq` on are decoded to their hashes, except for the last one. -/
def DecodesFrom (H : Bytes → Hash) (s : LedgerDB) (seq : ℕ) : Prop :=
  ∀ i e, seq ≤ i → i + 1 < s.commitSeq → s.db.getString (commitKey (toDecimal i)) = some e →
    Hash.fromBase32 e = H e

/-- The commits of an audit can be parsed when there are as many commits as blocks. -/
theorem AuditOf.parses_iff {a : Auditor} {seq : ℕ} (h : AuditOf H vals p.batches seq s.db a)
    (hp : p.Ok) (hinv : Inv H S p vals s) (hseq : seq < p.batches.length) :
    (∀ c ∈ a.commits, ∃ info, CommitInfo.ofString c = .ok info) ↔
      p.batches.flatten.length = p.batches.length := by
  have hle := (length_le_flatten hp.nonempty).1
  rw [h.commits]
  constructor
  · intro hall
    by_contra hne
    -- the entry with the number of the last block is empty
    have hmem : p.batches.flatten.length - 1
        ∈ List.range' seq (p.batches.flatten.length - seq) := by
      rw [List.mem_range'_1]
      omega
    obtain ⟨info, hinfo⟩ := hall _ (List.mem_map_of_mem hmem)
    rw [entryOf, hinv.fresh _ (by omega)] at hinfo
    exact absurd hinfo (by simp [CommitInfo.ofString, splitBy, at?, stoul, scanNumber, splitSign,
      ok_bind, error_bind])
  · intro heq c hc
    obtain ⟨i, hi, rfl⟩ := List.mem_map.mp hc
    rw [List.mem_range'_1] at hi
    obtain ⟨info, hget, hinfo⟩ := (hinv.commits i (by omega)).entry
    exact ⟨info, by rw [entryOf, hget, Option.getD_some, CommitInfo.ofString_toBytes hinfo.clean]⟩

/-- The commits of an audit are linked when their entries are decoded to their hashes. -/
theorem AuditOf.linked_iff {a : Auditor} {seq : ℕ} (h : AuditOf H vals p.batches seq s.db a)
    (hinv : Inv H S p vals s) (hentries : Entries s) (hseq : seq < p.batches.length)
    (hone : p.batches.flatten.length = p.batches.length) :
    Auditor.Linked H a.digest a.commits ↔ DecodesFrom H s seq := by
  have hlast : a.commits.getLast? = some (entryOf s.db (p.batches.length - 1)) := by
    rw [h.commits, hone, List.getLast?_map, List.getLast?_range', if_neg (by omega), Option.map_some]
    congr 2
    omega
  have hlink : ∀ i, i + 1 < s.commitSeq →
      ((∃ info, CommitInfo.ofString (entryOf s.db (i + 1)) = .ok info ∧
        (H (entryOf s.db i)).toBase32 = info.prevDigest) ↔
        ∀ e, s.db.getString (commitKey (toDecimal i)) = some e → Hash.fromBase32 e = H e) := by
    intro i hi
    obtain ⟨info, hget, hclean, hprev⟩ := hentries (i + 1) hi
    obtain ⟨info₀, hget₀, -⟩ := hentries i (by omega)
    rw [prevEntry, if_neg (Nat.succ_ne_zero i), Nat.add_sub_cancel, hget₀] at hprev
    rw [entryOf, entryOf, hget, hget₀, Option.getD_some, Option.getD_some,
      CommitInfo.ofString_toBytes hclean]
    constructor
    · rintro ⟨info', hinfo', hdigest⟩ e he
      obtain rfl := Option.some.inj he
      obtain rfl := Except.ok.inj hinfo'
      rw [hprev] at hdigest
      exact (Hash.toBase32_injective hdigest).symm
    · intro hall
      refine ⟨info, rfl, ?_⟩
      rw [hprev, ← hall _ rfl]
      rfl
  have hchain : (a.commits.IsChain fun c next =>
      ∃ info, CommitInfo.ofString next = .ok info ∧ (H c).toBase32 = info.prevDigest) ↔
      DecodesFrom H s seq := by
    rw [h.commits, hone, List.isChain_map, List.isChain_iff_getElem]
    simp only [List.length_range', List.getElem_range', one_mul]
    constructor
    · intro hall i e hi hlt he
      have hthis := hall (i - seq) (by rw [hinv.commitSeq] at hlt; omega)
      rw [show seq + (i - seq) = i by omega, show seq + (i - seq + 1) = i + 1 by omega] at hthis
      exact (hlink i hlt).mp hthis e he
    · intro hall i hi
      have hlt : seq + i + 1 < s.commitSeq := by rw [hinv.commitSeq]; omega
      rw [show seq + (i + 1) = seq + i + 1 by omega]
      exact (hlink _ hlt).mpr fun e he => hall _ e (by omega) hlt he
  constructor
  · exact fun hl => hchain.mp hl.chain
  · intro hd
    refine ⟨hchain.mpr hd, fun c hc => ?_⟩
    rw [hlast] at hc
    obtain rfl := Option.some.inj hc
    exact h.digest.symm

theorem exists_blockKeys {blocks : List Bytes} (h : ∀ v ∈ blocks, BlockVal v) :
    ∃ keys, Auditor.blockKeys blocks = .ok keys := by
  induction blocks with
  | nil => exact ⟨[], rfl⟩
  | cons v blocks ih =>
    obtain ⟨binfo, hparse, -⟩ := (h v List.mem_cons_self).ofString
    obtain ⟨keys, hkeys⟩ := ih fun v hv => h v (List.mem_cons_of_mem _ hv)
    refine ⟨binfo.keys ++ keys, ?_⟩
    rw [Auditor.blockKeys_cons, hparse, ok_bind, hkeys, ok_bind]
    rfl

end

/-- **When the audit of an honest ledger passes**: in every run with ASCII keys, for every commit
`seq` and every auditor who has replayed the commits before it, `GetAudit` returns, and `Audit` then
returns `true` exactly when every commit so far covers one block and the entries from `seq` on are
decoded to their hashes. -/
theorem audit_complete_iff (H : Bytes → Hash) (steps : List Step) (hascii : AsciiSteps steps)
    (hinj : Set.InjOn H {c | c ∈ runChunks H steps})
    (htext : ∀ c ∈ runChunks H steps, ¬ TextKey (H c).bytes) (s : LedgerDB)
    (hrun : run H steps = .ok s) (seq : ℕ) (hseq : seq < s.commitSeq) (adb : DB)
    (hreplayed : Replayed H steps seq adb) :
    ∃ a, (s.db.reads (getAudit H seq)).1 = .ok a ∧
      ((∃ adb', a.audit H adb = .ok (true, adb')) ↔
        (∀ b ∈ (plan steps).batches, b.length = 1) ∧ DecodesFrom H s seq) := by
  have hH : HashOk H {c | c ∈ runChunks H steps} := ⟨hinj, htext, List.mem_cons_self⟩
  have hp := plan_ok steps
  obtain ⟨vals, hinv, hvals⟩ := run_blocks hH hascii chunks_of_runChunks hrun
  have hentries := (run_entries steps s hrun
    (along_putsApart hH hascii chunks_of_runChunks hrun)).1
  have hready := hreplayed.ready hH hascii chunks_of_runChunks hrun hinv
  rw [hinv.commitSeq] at hseq
  obtain ⟨a, ha, hof⟩ := (hinv.served hp).getAudit_runIn hH hvals hseq
  refine ⟨a, (hinv.store.reads_of_runIn hH.inj ha).1, ?_⟩
  rw [← (length_le_flatten hp.nonempty).2, Auditor.audit_eq_true_iff]
  constructor
  · rintro ⟨oldest, -, -, -, hwalk, -⟩
    obtain ⟨hlinked, hparse, -⟩ := (Auditor.walkCommits_reverse_iff a oldest).mp hwalk
    have hone := (hof.parses_iff hp hinv hseq).mp hparse
    exact ⟨hone, (hof.linked_iff hinv hentries hseq hone).mp hlinked⟩
  · rintro ⟨hone, hdecodes⟩
    have hparse := (hof.parses_iff hp hinv hseq).mpr hone
    have hlinked := (hof.linked_iff hinv hentries hseq hone).mpr hdecodes
    obtain ⟨hprev, hmtroot⟩ := hof.oldestOf hp hinv hseq
    obtain ⟨adb', hupdate, -⟩ := hof.update hp hseq hinv.length_vals hready
    have hblocks : ∀ v ∈ a.blocks, BlockVal v := by
      rw [hof.blocks]
      exact fun v hv => hvals v (List.mem_of_mem_take (List.mem_of_mem_drop hv))
    obtain ⟨keys, hkeys⟩ := exists_blockKeys hblocks
    exact ⟨_, _, adb', keys, (Auditor.walkCommits_reverse_iff a _).mpr ⟨hlinked, hparse, rfl⟩,
      by rw [hprev]; exact hupdate, hkeys, Or.inl hmtroot.symm⟩

/-- With one commit the audit passes. -/
theorem audit_complete_iff_oneBlock :
    AsciiSteps oneBlock ∧ Replayed hashOne oneBlock 0 {} ∧ ∃ s a adb',
      run hashOne oneBlock = .ok s ∧ 0 < s.commitSeq ∧
      (s.db.reads (getAudit hashOne 0)).1 = .ok a ∧ a.audit hashOne {} = .ok (true, adb') := by
  refine ⟨ascii_oneBlock, .start, ?_⟩
  have hok : ((run hashOne oneBlock).toOption.any fun s => s.commitSeq == 1) = true := by
    decide +kernel
  rcases hrun : run hashOne oneBlock with e | s
  · rw [hrun] at hok
    cases hok
  rw [hrun] at hok
  have hone : s.commitSeq = 1 := beq_iff_eq.mp hok
  have hpos : 0 < s.commitSeq := by omega
  obtain ⟨a, ha, hiff⟩ := audit_complete_iff hashOne oneBlock ascii_oneBlock hashOk_oneBlock.inj
    hashOk_oneBlock.text s hrun 0 hpos {} .start
  have hbatches : ∀ b ∈ (plan oneBlock).batches, b.length = 1 := by decide
  obtain ⟨adb', haudit⟩ := hiff.mpr ⟨hbatches, fun i e _ hi => by omega⟩
  exact ⟨s, a, adb', rfl, hpos, ha, haudit⟩

/-- After a second commit the audit of commit 0 is rejected. -/
theorem audit_rejected :
    Replayed hashTwo twoRounds 0 {} ∧ ∃ s a adb', run hashTwo twoRounds = .ok s ∧ 0 < s.commitSeq ∧
      (s.db.reads (getAudit hashTwo 0)).1 = .ok a ∧ a.audit hashTwo {} = .ok (false, adb') := by
  refine ⟨.start, ?_⟩
  have hcheck : ((run hashTwo twoRounds).toOption.any fun s => decide (0 < s.commitSeq) &&
      (s.db.reads (getAudit hashTwo 0)).1.toOption.any fun a =>
        (a.audit hashTwo {}).toOption.any fun r => !r.1) = true := by decide +kernel
  rcases hrun : run hashTwo twoRounds with e | s
  · rw [hrun] at hcheck
    cases hcheck
  rw [hrun] at hcheck
  obtain ⟨hpos, hcheck⟩ := Bool.and_eq_true_iff.mp hcheck
  rcases ha : (s.db.reads (getAudit hashTwo 0)).1 with e | a
  · rw [ha] at hcheck
    cases hcheck
  rw [ha] at hcheck
  rcases haudit : a.audit hashTwo {} with e | ⟨res, adb'⟩
  · simp only [Option.any, Except.toOption, haudit] at hcheck
    cases hcheck
  · simp only [Except.toOption, Option.any_some, haudit, Bool.not_eq_true'] at hcheck
    exact ⟨s, a, adb', rfl, of_decide_eq_true hpos, ha, by rw [haudit, hcheck]⟩

end LedgerDatabase.Ledgerdb.LedgerDB
