import LedgerDatabase.Sqlledger.Equiv.History

/-!
# Who writes which record

`Set`, the index and `updateLedger` write to one store under names of their own: `<key>|<block>`, the
names of the nodes of the index (`IsName`), and those of the digest, the blocks, the transactions and
the nodes of their trees (`IsInternal`).  A key is not escaped, so `<key>|<block>` can be one of the
other names; `txn0|0` written in block 0 is stored where the first leaf of transaction 0 goes.  As
long as no key is written that has such a name, no record has two owners (`one_owner`).
-/

namespace LedgerDatabase

/-! ### The writes behind a store -/

/-- The second store has some writes more than the first one, all of them under names with `N`. -/
def DB.Puts (N : Bytes → Prop) (db db' : DB) : Prop :=
  ∃ puts, db'.rocks = puts ++ db.rocks ∧ ∀ w ∈ puts, N w.1

namespace DB.Puts

variable {N N' : Bytes → Prop} {db db' db'' : DB}

theorem of_rocks (h : db'.rocks = db.rocks) : Puts N db db' :=
  ⟨[], h, fun _ hw => absurd hw List.not_mem_nil⟩

theorem trans (h : Puts N db db') (h' : Puts N db' db'') : Puts N db db'' := by
  obtain ⟨puts, hrocks, hnames⟩ := h
  obtain ⟨puts', hrocks', hnames'⟩ := h'
  refine ⟨puts' ++ puts, by rw [hrocks', hrocks, List.append_assoc], ?_⟩
  intro w hw
  rcases List.mem_append.mp hw with hw | hw
  · exact hnames' w hw
  · exact hnames w hw

theorem mono (h : Puts N db db') (hN : ∀ y, N y → N' y) : Puts N' db db' := by
  obtain ⟨puts, hrocks, hnames⟩ := h
  exact ⟨puts, hrocks, fun w hw => hN _ (hnames w hw)⟩

theorem putString (db : DB) {key : Bytes} (val : Bytes) (hkey : N key) :
    Puts N db (db.putString key val) :=
  ⟨[(key, val)], rfl, fun w hw => by rwa [List.mem_singleton.mp hw]⟩

theorem putChunk (db : DB) {key : Bytes} (chunk : Bytes) (hkey : N key) :
    Puts N db (db.putChunk key chunk) :=
  ⟨[(key, chunk)], rfl, fun w hw => by rwa [List.mem_singleton.mp hw]⟩

theorem putStrings {puts : List (Bytes × Bytes)} (db : DB) (h : ∀ w ∈ puts, N w.1) :
    Puts N db (db.putStrings puts) := by
  induction puts generalizing db with
  | nil => exact of_rocks rfl
  | cons w puts ih =>
    have hput := putString db w.2 (h w List.mem_cons_self)
    exact hput.trans (ih _ fun w' hw' => h w' (List.mem_cons_of_mem _ hw'))

end DB.Puts

/-! ### What the index writes -/

namespace Qldb.QLBTree

variable {cfg : BPlusConfig} {t : QLBTree} {batch : List (Bytes × Bytes)} {db : DB}

/-- `Set` puts nodes of the tree only. -/
theorem puts_set {r : Bool × QLBTree × DB} (h : t.set cfg batch db = .ok r) :
    DB.Puts (IsName t.pre) db r.2.2 := by
  rw [set] at h
  split at h
  · rw [← Except.ok.inj h]
    exact DB.Puts.of_rocks rfl
  · simp only [bind_eq_ok_iff] at h
    obtain ⟨⟨id, delta, db₁⟩, hloop, db₂, hcommit, root, -, h⟩ := h
    rw [← Except.ok.inj h]
    have hputs := (commit_inv (I := DB.Puts (IsName t.pre) db₁)
      (fun db _ chunk hkey hw => hw.trans (DB.Puts.putChunk db chunk hkey)) (Or.inl rfl)
      (DB.Puts.of_rocks rfl)).of_ok hcommit
    apply (DB.Puts.of_rocks (sameAnswers_setLoop hloop).rocks).trans
    exact hputs.trans (DB.Puts.of_rocks (DB.rocks_getChunk db₂ _))

end Qldb.QLBTree

namespace Sqlledger

open Qldb.QLBTree (IsName)
open MerkleTree (nodeKey)
open SQLLedger

variable {H : Bytes → Hash} {cfg : Qldb.BPlusConfig} {t t' : Threads} {a : Step}

/-! ### What `Build` writes -/

namespace MerkleTree

variable {mtid : Bytes}

theorem puts_levels : ∀ {fuel l : ℕ} {hs : List Hash} {db : DB} {r : ℕ × List Hash × DB},
    levels H mtid fuel l hs db = .ok r → DB.Puts (fun y => ∃ l i, y = nodeKey mtid l i) db r.2.2
  | 0, _, _, _, _, h => nomatch h
  | fuel + 1, l, hs, db, r, h => by
    rw [levels] at h
    split_ifs at h with hlen
    · apply DB.Puts.trans _ (puts_levels h)
      rw [parents_snd (i := 0)]
      apply DB.Puts.putStrings
      intro w hw
      obtain ⟨j, h, -, rfl⟩ := mem_levelPuts.mp hw
      exact ⟨_, _, rfl⟩
    · rw [← Except.ok.inj h]
      exact DB.Puts.of_rocks rfl

/-- `Build` puts nodes of its tree only. -/
theorem puts_build {db : DB} {leaves : List Bytes} {r : Option (Bytes × Bytes) × DB}
    (h : build H db mtid leaves = .ok r) : DB.Puts (fun y => ∃ l i, y = nodeKey mtid l i) db r.2 := by
  rw [build] at h
  split_ifs at h with hlen
  · rw [← Except.ok.inj h]
    exact DB.Puts.of_rocks rfl
  · simp only [bind_eq_ok_iff] at h
    obtain ⟨⟨level, hs, db₁⟩, hlevels, rootHash, -, h⟩ := h
    rw [← Except.ok.inj h]
    apply DB.Puts.trans _ (puts_levels hlevels)
    rw [putLeaves_snd]
    apply DB.Puts.putStrings
    intro w hw
    obtain ⟨j, h, -, rfl⟩ := mem_levelPuts.mp hw
    exact ⟨_, _, rfl⟩

end MerkleTree

/-! ### Owners -/

/-- Those who write to the store. -/
inductive Owner
  /-- `Set`, for a document. -/
  | set
  /-- `Set`, for the index. -/
  | indexed
  /-- `updateLedger` and `MerkleTree::Build`. -/
  | updateLedger
  deriving DecidableEq, Repr

/-- Who writes in a step. -/
def Step.owner : Step → Owner
  | .setIndexed => .indexed
  | .buildTxn | .buildBlock => .updateLedger
  | _ => .set

/-- The names that a step writes. -/
def putBy (H : Bytes → Hash) (cfg : Qldb.BPlusConfig) (t : Threads) (a : Step) :
    List (Owner × Bytes) :=
  match step H cfg t a with
  | none => []
  | some t' =>
    let puts := t'.ledger.db.rocks.take (t'.ledger.db.rocks.length - t.ledger.db.rocks.length)
    puts.map fun w => (a.owner, w.1)

/-- The system with a record of who has written which names. -/
abbrev owned (H : Bytes → Hash) (cfg : Qldb.BPlusConfig) :=
  Run.observe (step H cfg) (putBy H cfg)

/-- No key that is written has the name of another record. -/
def Unreserved (s : Threads × List (Owner × Bytes)) (a : Step) : Prop :=
  ∀ keys vals now, a = .beginSet keys vals now →
    ∀ key ∈ keys, ¬ IsInternal (histKey key s.1.ledger.blockSeq)

/-- The names that an owner writes. -/
def Owner.Uses : Owner → Bytes → Prop
  | .set, y => ¬ IsInternal y
  | .indexed, y => IsName (str "COMMITTED_") y
  | .updateLedger, y => IsInternal y ∧ ¬ IsName (str "COMMITTED_") y

theorem Owner.Uses.unique {o o' : Owner} {y : Bytes} (h : o.Uses y) (h' : o'.Uses y) : o = o' := by
  cases o with
  | set =>
    cases o' with
    | set => rfl
    | indexed => exact absurd (IsInternal.indexed h') h
    | updateLedger => exact absurd h'.1 h
  | indexed =>
    cases o' with
    | set => exact absurd (IsInternal.indexed h) h'
    | indexed => rfl
    | updateLedger => exact absurd h h'.2
  | updateLedger =>
    cases o' with
    | set => exact absurd h.1 h'
    | indexed => exact absurd h' h.2
    | updateLedger => rfl

/-- What a call of `Set` still has to store. -/
def Unread : Setting → Prop
  | .storing _ _ _ nextBlkSeq _ left => ∀ e ∈ left, ¬ IsInternal (histKey e.1 nextBlkSeq)
  | _ => True

/-- Everything is written by an owner that uses the name. -/
structure Separate (s : Threads × List (Owner × Bytes)) : Prop where
  pre : s.1.ledger.indexed.pre = str "COMMITTED_"
  pending : Unread s.1.setting
  uses : ∀ e ∈ s.2, e.1.Uses e.2

/-- What a step puts under names that its owner uses is recorded so. -/
theorem Separate.puts {s : Threads × List (Owner × Bytes)} (h : Separate s)
    (hstep : step H cfg s.1 a = some t') (hputs : DB.Puts a.owner.Uses s.1.ledger.db t'.ledger.db)
    (hpre : t'.ledger.indexed.pre = s.1.ledger.indexed.pre) (hpending : Unread t'.setting) :
    Separate (t', s.2 ++ putBy H cfg s.1 a) := by
  refine ⟨hpre.trans h.pre, hpending, ?_⟩
  obtain ⟨puts, hrocks, hnames⟩ := hputs
  have hput : putBy H cfg s.1 a = puts.map fun w => (a.owner, w.1) := by
    rw [putBy, hstep]
    simp only [hrocks, List.length_append, Nat.add_sub_cancel, List.take_left]
  intro e he
  rcases List.mem_append.mp he with he | he
  · exact h.uses e he
  · rw [hput, List.mem_map] at he
    obtain ⟨w, hw, rfl⟩ := he
    exact hnames w hw

theorem not_isName_of_head {y : Bytes} (h : y.head? ≠ some 67) : ¬ IsName (str "COMMITTED_") y := by
  rintro (rfl | ⟨n, x, rfl⟩)
  · exact h rfl
  · exact h rfl

theorem uses_updateLedger {y : Bytes} (h : IsInternal y) (hhead : y.head? ≠ some 67) :
    Owner.updateLedger.Uses y :=
  ⟨h, not_isName_of_head hhead⟩

theorem puts_buildTxn {s : SQLLedger} {b i : ℕ} {txn : ℕ × List Bytes} {r : Bytes × SQLLedger}
    (h : s.buildTxn H b i txn = .ok r) :
    DB.Puts Owner.updateLedger.Uses s.db r.2.db ∧ r.2.indexed = s.indexed := by
  rw [buildTxn] at h
  obtain ⟨⟨built, db⟩, htree, h⟩ := bind_eq_ok_iff.mp h
  obtain rfl := Except.ok.inj h
  refine ⟨?_, rfl⟩
  have htxn : Owner.updateLedger.Uses (txnKey txn.1) :=
    uses_updateLedger (IsInternal.txn _) (show some (116 : UInt8) ≠ some 67 by decide)
  apply DB.Puts.trans _ (DB.Puts.putString db _ htxn)
  apply (MerkleTree.puts_build htree).mono
  rintro y ⟨l, i, rfl⟩
  exact uses_updateLedger (IsInternal.txnNode _ l i) (show some (116 : UInt8) ≠ some 67 by decide)

theorem puts_buildBlock {s s' : SQLLedger} {b : ℕ} {leaves : List Bytes}
    (h : s.buildBlock H b leaves = .ok s') :
    DB.Puts Owner.updateLedger.Uses s.db s'.db ∧ s'.indexed = s.indexed := by
  rw [buildBlock] at h
  obtain ⟨⟨built, db⟩, htree, h⟩ := bind_eq_ok_iff.mp h
  obtain ⟨prevHash, -, h⟩ := bind_eq_ok_iff.mp h
  rw [← Except.ok.inj h]
  refine ⟨?_, rfl⟩
  have hblock : Owner.updateLedger.Uses (blockKey b) :=
    uses_updateLedger (IsInternal.block _) (show some (98 : UInt8) ≠ some 67 by decide)
  have hdigest : Owner.updateLedger.Uses (str "digest") :=
    uses_updateLedger IsInternal.digest (show some (100 : UInt8) ≠ some 67 by decide)
  apply DB.Puts.trans _ ((DB.Puts.putString db _ hblock).trans (DB.Puts.putString _ _ hdigest))
  apply (MerkleTree.puts_build htree).mono
  rintro y ⟨l, i, rfl⟩
  exact uses_updateLedger (IsInternal.blockNode _ l i) (show some (98 : UInt8) ≠ some 67 by decide)

/-- **A step** at which no key has the name of another record. -/
theorem Separate.step {s s' : Threads × List (Owner × Bytes)} (h : Separate s)
    (hkeys : Unreserved s a) (hstep : owned H cfg s a = some s') : Separate s' := by
  obtain ⟨t', puts'⟩ := s'
  obtain ⟨hstep, rfl⟩ := Run.observe_eq_some.mp hstep
  -- most steps write nothing
  have hnone (hdb : t'.ledger.db = s.1.ledger.db)
      (hpre : t'.ledger.indexed.pre = s.1.ledger.indexed.pre) (hpending : Unread t'.setting) :
      Separate (t', s.2 ++ putBy H cfg s.1 a) :=
    h.puts hstep (DB.Puts.of_rocks (congrArg DB.rocks hdb)) hpre hpending
  have hpending := h.pending
  cases stepped_of_step hstep with
  | beginSet hidle hdocs =>
    refine hnone rfl rfl fun e he => ?_
    exact hkeys _ _ _ rfl e.1 (List.of_mem_zip he).1
  | putDocument hstoring =>
    rw [hstoring] at hpending
    apply h.puts hstep (DB.Puts.putString _ _ (hpending _ List.mem_cons_self)) rfl
    exact fun e he => hpending e (List.mem_cons_of_mem _ he)
  | setIndexed hstoring hset =>
    have hput := Qldb.QLBTree.puts_set hset
    rw [h.pre] at hput
    exact h.puts hstep hput (Qldb.QLBTree.agreeOff_set hset).1 trivial
  | appendLog hlogging hchunk => exact hnone rfl rfl trivial
  | endSet hadvancing => exact hnone rfl rfl trivial
  | cutBlock hsleeping hbuffer => exact hnone rfl rfl hpending
  | buildTxn hbuilding hbuild =>
    obtain ⟨hput, hindexed⟩ := puts_buildTxn hbuild
    exact h.puts hstep hput (congrArg Qldb.QLBTree.pre hindexed) hpending
  | buildBlock hbuilding hbuild =>
    obtain ⟨hput, hindexed⟩ := puts_buildBlock hbuild
    exact h.puts hstep hput (congrArg Qldb.QLBTree.pre hindexed) hpending

/-- **No record has two owners** after any run in which no key is written whose documents have the
name of a record of `updateLedger`, of `Build` or of the index. -/
theorem one_owner {steps : List Step} {s : Threads × List (Owner × Bytes)}
    (hrun : Run.runs (owned H cfg) (start, []) steps = some s)
    (hkeys : Run.Along (owned H cfg) Unreserved (start, []) steps) :
    ∀ o o' y, (o, y) ∈ s.2 → (o', y) ∈ s.2 → o = o' := by
  have hstart : Separate (start, []) := ⟨rfl, trivial, fun _ he => absurd he List.not_mem_nil⟩
  have hseparate := Run.runs_induction_along (motive := fun _ s => Separate s) hstart
    (fun _ _ _ _ _ hs hkeys hstep => hs.step hkeys hstep) hkeys hrun
  intro o o' y h h'
  exact (hseparate.uses _ h).unique (hseparate.uses _ h')

/-- It is enough that the keys have no such name in any block. -/
theorem along_unreserved : ∀ {steps : List Step} {s : Threads × List (Owner × Bytes)},
    (∀ keys vals now, Step.beginSet keys vals now ∈ steps →
      ∀ key ∈ keys, ∀ b, ¬ IsInternal (histKey key b)) →
    Run.Along (owned H cfg) Unreserved s steps
  | [], _, _ => trivial
  | a :: steps, s, h => by
    constructor
    · rintro keys vals now rfl key hkey
      exact h keys vals now List.mem_cons_self key hkey _
    · intro s' _
      exact along_unreserved fun keys vals now hmem => h keys vals now (List.mem_cons_of_mem _ hmem)

theorem not_isInternal_of_head {y : Bytes} (h : y.head? = some 97) : ¬ IsInternal y := by
  intro hy
  cases hy with
  | digest => cases h
  | txn tid => cases h
  | txnNode tid l i => cases h
  | block seq => cases h
  | blockNode seq l i => cases h
  | indexed hname => exact not_isName_of_head (by rw [h]; decide) hname

theorem one_owner_oneBlock : ∃ s,
    Run.runs (owned (Hash.ofTable []) {}) (start, []) oneBlock = some s ∧
      (Owner.set, str "a|0") ∈ s.2 ∧ (Owner.updateLedger, str "digest") ∈ s.2 ∧
      ∀ o o' y, (o, y) ∈ s.2 → (o', y) ∈ s.2 → o = o' := by
  have hrun : (Run.runs (owned (Hash.ofTable []) {}) (start, []) oneBlock).any (fun s =>
      (Owner.set, str "a|0") ∈ s.2 ∧ (Owner.updateLedger, str "digest") ∈ s.2) = true := by
    decide +kernel
  obtain ⟨s, hs, hcheck⟩ := (Option.any_eq_true _ _).mp hrun
  obtain ⟨hdoc, hdigest⟩ := of_decide_eq_true hcheck
  refine ⟨s, hs, hdoc, hdigest, one_owner hs (along_unreserved ?_)⟩
  intro keys vals now hset key hkey b
  simp only [oneBlock, List.mem_cons, List.not_mem_nil, or_false, reduceCtorEq,
    Step.beginSet.injEq] at hset
  rw [hset.1, List.mem_singleton] at hkey
  rw [hkey]
  exact not_isInternal_of_head rfl

/-- The document of a key is overwritten by a leaf of the tree over its own transaction. -/
theorem not_one_owner : ∃ s,
    Run.runs (owned (Hash.ofTable []) {}) (start, [])
        [.beginSet [str "txn0|0"] [str "v"] 7, .putDocument, .cutBlock, .buildTxn] = some s ∧
      (Owner.set, str "txn0|0|0") ∈ s.2 ∧ (Owner.updateLedger, str "txn0|0|0") ∈ s.2 ∧
      ¬ ∀ o o' y, (o, y) ∈ s.2 → (o', y) ∈ s.2 → o = o' := by
  have hrun : (Run.runs (owned (Hash.ofTable []) {}) (start, [])
      [.beginSet [str "txn0|0"] [str "v"] 7, .putDocument, .cutBlock, .buildTxn]).any (fun s =>
        (Owner.set, str "txn0|0|0") ∈ s.2 ∧ (Owner.updateLedger, str "txn0|0|0") ∈ s.2) = true := by
    decide +kernel
  obtain ⟨s, hs, hcheck⟩ := (Option.any_eq_true _ _).mp hrun
  obtain ⟨hset, hleaf⟩ := of_decide_eq_true hcheck
  refine ⟨s, hs, hset, hleaf, fun hone => ?_⟩
  cases hone _ _ _ hset hleaf

end Sqlledger

end LedgerDatabase
