import LedgerDatabase.Library.SortedPrefix
import LedgerDatabase.Qldb.Equiv.BTree.Set
import LedgerDatabase.Sqlledger.Equiv.MerkleProof
import LedgerDatabase.Sqlledger.Equiv.Run

/-!
# The history of a key

The documents of a key `k` stand under `k|<block>`, in one store with everything else.  `GetHistory`
takes the records whose names start with `k|`, in the order of the names.

* Records of other keys, nodes of Merkle trees and nodes of the index can have such names as well.  If
  they do not, exactly the documents of the key are found (`Inv`, `exists_blocks`).
* The names are in order as strings and not as numbers, so block 10 comes before block 2.
  `returnsHistory_iff` says when this matters.
-/

namespace LedgerDatabase.Sqlledger

open Qldb.QLBTree (IsName)
open MerkleTree (nodeKey agreesOff_build)
open SQLLedger

variable {H : Bytes → Hash} {cfg : Qldb.BPlusConfig}

/-! ### Names -/

/-- The names of the records that are not documents. -/
inductive IsInternal : Bytes → Prop
  | digest : IsInternal (str "digest")
  | txn (tid : ℕ) : IsInternal (txnKey tid)
  | txnNode (tid l i : ℕ) : IsInternal (nodeKey (txnKey tid) l i)
  | block (seq : ℕ) : IsInternal (blockKey seq)
  | blockNode (seq l i : ℕ) : IsInternal (nodeKey (blockKey seq) l i)
  | indexed {y : Bytes} (h : IsName (str "COMMITTED_") y) : IsInternal y

/-- No record that is not a document looks like one of the key. -/
def Reserved (key : Bytes) : Prop := ∀ y, IsInternal y → ¬ histPrefix key <+: y

theorem histKey_eq_or_prefix_key {key key' : Bytes} {seq : ℕ} (h : histPrefix key <+: histKey key' seq) :
    key' = key ∨ histPrefix key <+: key' := by
  have hkey' : key' <+: histKey key' seq := by
    rw [histKey, histPrefix, List.append_assoc]
    exact List.prefix_append _ _
  have hlen : ∀ key : Bytes, (histPrefix key).length = key.length + 1 := fun key => by
    rw [histPrefix, List.length_append]
    rfl
  rcases Nat.lt_trichotomy key.length key'.length with hlt | heq | hgt
  · right
    apply List.prefix_of_prefix_length_le h hkey'
    rw [hlen]
    exact hlt
  · left
    have hpre : histPrefix key = histPrefix key' := by
      apply (List.prefix_of_prefix_length_le h (List.prefix_append _ _) _).eq_of_length
      · rw [hlen, hlen, heq]
      · rw [hlen, hlen, heq]
    exact (List.append_cancel_right hpre).symm
  · -- the bar behind the key would be one of the digits
    exfalso
    have hpre : histPrefix key' <+: key := by
      have hkey : key <+: histKey key' seq := (List.prefix_append _ _).trans h
      apply List.prefix_of_prefix_length_le (List.prefix_append _ _) hkey
      rw [hlen]
      exact hgt
    obtain ⟨r, rfl⟩ := hpre
    rw [histPrefix, List.append_assoc, histKey, List.prefix_append_right_inj] at h
    apply not_mem_toDecimal (b := 124) (by decide) seq
    exact h.subset (List.mem_append_right _ (List.mem_singleton_self _))

theorem histKey_inj {key : Bytes} {a b : ℕ} : histKey key a = histKey key b ↔ a = b := by
  rw [histKey, histKey, List.append_cancel_left_eq, toDecimal_inj]

/-- The order of the records of a key. -/
def ByName (a b : ℕ) : Prop := toDecimal a < toDecimal b

instance : DecidableRel ByName := fun a b => inferInstanceAs (Decidable (toDecimal a < toDecimal b))

instance : Std.Asymm ByName := ⟨fun _ _ h => List.lt_asymm h⟩

theorem byName_of_histKey_lt {key : Bytes} {a b : ℕ} (h : histKey key a < histKey key b) :
    ByName a b := by
  by_contra hnot
  by_cases heq : toDecimal a = toDecimal b
  · rw [histKey, heq] at h
    exact List.lt_irrefl _ h
  · exact List.lt_asymm h (List.append_left_lt (StdMap.lt_of_not_lt_of_ne hnot heq))

/-! ### The iterator -/

variable {db db' : DB} {key : Bytes}

theorem ordered_records (db : DB) : (records db).Ordered := by
  rw [records]
  induction db.rocks with
  | nil => exact StdMap.ordered_nil
  | cons e rocks ih => exact ih.assign e.1 e.2

/-- The iterator sees what `Get` finds. -/
theorem lookup_records (db : DB) (y : Bytes) : (records db).lookup y = db.getString y := by
  rw [records, DB.getString]
  induction db.rocks with
  | nil => rfl
  | cons e rocks ih => rw [List.foldr_cons, StdMap.lookup_assign, ih, StdMap.lookup_cons_ite]

/-- What stands between a prefix and a string with that prefix has the prefix. -/
theorem prefix_of_between {pre : Bytes} : ∀ {a t : Bytes}, ¬ a < pre → a < pre ++ t → pre <+: a := by
  induction pre with
  | nil => exact fun _ _ => List.nil_prefix
  | cons p pre ih =>
    intro a t hle hlt
    cases a with
    | nil => exact absurd (List.nil_lt_cons p pre) hle
    | cons x a =>
      rw [List.cons_append, List.cons_lt_cons_iff] at hlt
      rw [List.cons_lt_cons_iff, not_or] at hle
      rcases hlt with hlt | ⟨rfl, hlt⟩
      · exact absurd hlt hle.1
      · rw [List.cons_prefix_cons]
        exact ⟨rfl, ih (fun h => hle.2 ⟨rfl, h⟩) hlt⟩

/-- The records of a key, as the iterator meets them. -/
def recordsOf (db : DB) (key : Bytes) : StdMap Bytes :=
  (records db).filter fun e => (histPrefix key).isPrefixOf e.1

/-- **From `Seek` on**, the records with the prefix come first. -/
theorem takeWhile_lowerBound (db : DB) (pre : Bytes) :
    ((records db).lowerBound pre).takeWhile (fun e => pre.isPrefixOf e.1) =
      (records db).filter fun e => pre.isPrefixOf e.1 := by
  have hord := ordered_records db
  rw [StdMap.lowerBound_eq_filter hord, StdMap.takeWhile_eq_filter, List.filter_filter]
  · apply List.filter_congr
    intro e _
    by_cases hpre : pre.isPrefixOf e.1
    · -- a string is not smaller than its prefix
      have hge : ¬ e.1 < pre := by
        obtain ⟨t, ht⟩ := List.isPrefixOf_iff_prefix.mp hpre
        rw [← ht]
        exact List.not_lt.mpr List.le_append_left
      rw [hpre, decide_eq_false hge]
      rfl
    · rw [Bool.not_eq_true] at hpre
      rw [hpre, Bool.false_and]
  · apply List.Pairwise.imp_of_mem _ (hord.filter _)
    intro e e' he he' hlt hpre
    have hle : ¬ e.1 < pre := by simpa using (List.mem_filter.mp he).2
    obtain ⟨t, ht⟩ := List.isPrefixOf_iff_prefix.mp hpre
    rw [← ht] at hlt
    exact List.isPrefixOf_iff_prefix.mpr (prefix_of_between hle hlt)

/-- **The loop** takes records as long as they have the prefix and more are wanted. -/
theorem historyLoop_eq {pre : Bytes} {n : ℕ} : ∀ {cnt : ℕ} {iter : StdMap Bytes}, cnt < n →
    cnt < 2 ^ 31 → historyLoop pre n cnt iter =
      (let found := (iter.takeWhile fun e => pre.isPrefixOf e.1).take (n - cnt)
       if cnt + found.length < 2 ^ 31 then some (found.map Prod.snd) else none)
  | cnt, [], _, hcnt => by
    rw [historyLoop, List.takeWhile_nil, List.take_nil]
    simp only [List.length_nil, Nat.add_zero, if_pos hcnt, List.map_nil]
  | cnt, e :: iter, hlt, hcnt => by
    rw [historyLoop]
    by_cases hpre : pre.isPrefixOf e.1
    · obtain ⟨k, hk⟩ : ∃ k, n - cnt = k + 1 := ⟨n - cnt - 1, by omega⟩
      have htake : (e :: iter).takeWhile (fun e => pre.isPrefixOf e.1) =
          e :: iter.takeWhile fun e => pre.isPrefixOf e.1 := List.takeWhile_cons_of_pos hpre
      rw [if_pos hpre, htake, hk]
      simp only [List.take_succ_cons, List.length_cons, List.map_cons]
      by_cases hint : cnt + 1 < 2 ^ 31
      · rw [if_pos hint]
        by_cases hlast : n ≤ cnt + 1
        · obtain rfl : k = 0 := by omega
          rw [if_pos hlast, List.take_zero, List.length_nil, if_pos hint, List.map_nil]
        · have hk' : n - (cnt + 1) = k := by omega
          rw [if_neg hlast, historyLoop_eq (Nat.lt_of_not_le hlast) hint, hk']
          simp only [Nat.add_assoc, Nat.add_comm 1]
          split_ifs
          · rfl
          · rfl
      · rw [if_neg hint, if_neg (by omega)]
    · have htake : (e :: iter).takeWhile (fun e => pre.isPrefixOf e.1) = [] :=
        List.takeWhile_cons_of_neg hpre
      rw [if_neg hpre, htake, List.take_nil]
      simp only [List.length_nil, Nat.add_zero, if_pos hcnt, List.map_nil]

/-- **`GetHistory`** returns the first records of the key, unless their number overflows. -/
theorem getHistory_eq (s : SQLLedger) (key : Bytes) (n : ℕ) :
    s.getHistory key n = if min n (recordsOf s.db key).length < 2 ^ 31
      then some (((recordsOf s.db key).take n).map Prod.snd) else none := by
  rw [getHistory]
  by_cases hn : n = 0
  · rw [if_pos hn, hn, Nat.zero_min, if_pos (by decide), List.take_zero, List.map_nil]
  · rw [if_neg hn, historyLoop_eq (Nat.pos_of_ne_zero hn) (by decide), takeWhile_lowerBound]
    simp only [Nat.sub_zero, Nat.zero_add, List.length_take, recordsOf]
    rfl

/-! ### What is written in a run -/

/-- A document that `Set` has stored. -/
structure Written where
  key : Bytes
  block : ℕ
  doc : Bytes
  deriving DecidableEq, Repr

/-- The document that a step stores. -/
def writtenBy (t : Threads) : Step → List Written
  | .putDocument =>
    match t.setting with
    | .storing _ _ _ nextBlkSeq _ (e :: _) => [⟨e.1, nextBlkSeq, e.2⟩]
    | _ => []
  | _ => []

/-- The documents that are stored in a run, oldest first. -/
def written (H : Bytes → Hash) (cfg : Qldb.BPlusConfig) (t : Threads) : List Step → List Written
  | [] => []
  | a :: steps => writtenBy t a ++
    match step H cfg t a with
    | some t' => written H cfg t' steps
    | none => []

theorem written_concat {t t' : Threads} {steps : List Step} (a : Step)
    (h : Run.runs (step H cfg) t steps = some t') :
    written H cfg t (steps ++ [a]) = written H cfg t steps ++ writtenBy t' a := by
  induction steps generalizing t with
  | nil =>
    obtain rfl := Option.some.inj h
    rw [List.nil_append, written, written, List.nil_append]
    cases step H cfg t a <;> exact List.append_nil _
  | cons b steps ih =>
    rw [Run.runs] at h
    obtain ⟨t₁, hstep, hrest⟩ := Option.bind_eq_some_iff.mp h
    rw [List.cons_append, written, written, hstep]
    simp only
    rw [ih hrest, List.append_assoc]

/-- The blocks in which a key was written. -/
def blocksOf (key : Bytes) (ws : List Written) : Finset ℕ :=
  ((ws.filter fun w => w.key = key).map Written.block).toFinset

theorem mem_blocksOf {ws : List Written} {b : ℕ} :
    b ∈ blocksOf key ws ↔ ∃ d, ⟨key, b, d⟩ ∈ ws := by
  rw [blocksOf, List.mem_toFinset, List.mem_map]
  constructor
  · rintro ⟨⟨k, b', d⟩, hw, rfl⟩
    obtain ⟨hmem, hkey⟩ := List.mem_filter.mp hw
    obtain rfl : k = key := of_decide_eq_true hkey
    exact ⟨d, hmem⟩
  · rintro ⟨d, hw⟩
    exact ⟨_, List.mem_filter.mpr ⟨hw, decide_eq_true rfl⟩, rfl⟩

/-! ### The documents of a key in the store -/

/-- A document starts with the number of its block. -/
def Numbered (b : ℕ) (d : Bytes) : Prop := ∃ rest, d = toDecimal b ++ 124 :: rest

theorem Numbered.unique {b b' : ℕ} {d : Bytes} (h : Numbered b d) (h' : Numbered b' d) : b = b' := by
  obtain ⟨rest, rfl⟩ := h
  obtain ⟨rest', heq⟩ := h'
  have hscan := fun n rest => scanNumber_toDecimal n (124 :: rest) (by
    intro c hc
    obtain rfl : 124 = c := Option.some.inj hc
    decide)
  have hb := hscan b rest
  rw [heq, hscan b' rest'] at hb
  exact (Prod.mk.inj (Except.ok.inj hb)).2.symm

theorem numbered_documents : ∀ {seq tid now i : ℕ} {keys vals docs : List Bytes},
    documents seq tid now i keys vals = .ok docs → ∀ d ∈ docs, Numbered seq d
  | _, _, _, _, [], _, docs, h => by
    rw [← Except.ok.inj h]
    exact fun _ hd => absurd hd List.not_mem_nil
  | _, _, _, _, _ :: _, [], _, h => nomatch h
  | seq, tid, now, i, key :: keys, val :: vals, docs, h => by
    rw [documents] at h
    obtain ⟨docs', hdocs, h⟩ := bind_eq_ok_iff.mp h
    rw [← Except.ok.inj h]
    intro d hd
    rcases List.mem_cons.mp hd with rfl | hd
    · refine ⟨txnKey tid ++ (str "|" ++ (toDecimal i ++ (str "|" ++ (key ++ (str "|" ++ (val ++
        (str "|" ++ toDecimal now))))))), ?_⟩
      rw [document]
      simp only [List.append_assoc]
      rfl
    · exact numbered_documents hdocs d hd

/-- What a call of `Set` still has to store. -/
def Pending (key : Bytes) : Setting → Prop
  | .storing _ _ _ nextBlkSeq _ left =>
    ∀ e ∈ left, ¬ histPrefix key <+: e.1 ∧ Numbered nextBlkSeq e.2
  | _ => True

/-- The store has the last document of every block for the key, and no other record under its prefix. -/
structure Inv (key : Bytes) (ws : List Written) (t : Threads) : Prop where
  indexed : t.ledger.indexed.pre = str "COMMITTED_"
  stored : ∀ b d, t.ledger.db.getString (histKey key b) = some d → ⟨key, b, d⟩ ∈ ws
  kept : ∀ b d, ⟨key, b, d⟩ ∈ ws → (t.ledger.db.getString (histKey key b)).isSome
  only : ∀ y, histPrefix key <+: y → (t.ledger.db.getString y).isSome → ∃ b, y = histKey key b
  numbered : ∀ b d, ⟨key, b, d⟩ ∈ ws → Numbered b d
  pending : Pending key t.setting

/-- The records of the keys that the call writes cannot be taken for records of this key. -/
def Step.Apart (key : Bytes) : Step → Prop
  | .beginSet keys _ _ => ∀ key' ∈ keys, ¬ histPrefix key <+: key'
  | _ => True

/-! ### Steps that store no document -/

/-- Only records that are not documents have changed. -/
structure KeepsDocuments (s s' : SQLLedger) : Prop where
  pre : s'.indexed.pre = s.indexed.pre
  getString : ∀ y, ¬ IsInternal y → s'.db.getString y = s.db.getString y

theorem keepsDocuments_set {s : SQLLedger} {batch : List (Bytes × Bytes)}
    {r : Bool × Qldb.QLBTree × DB} (hpre : s.indexed.pre = str "COMMITTED_")
    (h : s.indexed.set cfg batch s.db = .ok r) :
    KeepsDocuments s { s with indexed := r.2.1, db := r.2.2 } := by
  obtain ⟨hsame, hagree⟩ := Qldb.QLBTree.agreeOff_set h
  refine ⟨hsame, fun y hy => hagree.getString y fun hname => hy (IsInternal.indexed ?_)⟩
  rwa [hpre] at hname

theorem getString_build {mtid : Bytes} {leaves : List Bytes} {r : Option (Bytes × Bytes)}
    (h : MerkleTree.build H db mtid leaves = .ok (r, db')) {y : Bytes}
    (hname : ∀ l i, IsInternal (nodeKey mtid l i)) (hy : ¬ IsInternal y) :
    db'.getString y = db.getString y :=
  agreesOff_build h y fun l i heq => hy (heq ▸ hname l i)

theorem keepsDocuments_buildTxn {s : SQLLedger} {newBlkSeq txnSeq : ℕ} {txn : ℕ × List Bytes}
    {r : Bytes × SQLLedger} (h : s.buildTxn H newBlkSeq txnSeq txn = .ok r) :
    KeepsDocuments s r.2 := by
  rw [buildTxn] at h
  obtain ⟨⟨built, db⟩, hbuild, h⟩ := bind_eq_ok_iff.mp h
  obtain rfl := Except.ok.inj h
  refine ⟨rfl, fun y hy => ?_⟩
  rw [DB.getString_putString, if_neg (by rintro rfl; exact hy (IsInternal.txn txn.1))]
  exact getString_build hbuild (IsInternal.txnNode txn.1) hy

theorem keepsDocuments_buildBlock {s s' : SQLLedger} {newBlkSeq : ℕ} {leaves : List Bytes}
    (h : s.buildBlock H newBlkSeq leaves = .ok s') : KeepsDocuments s s' := by
  rw [buildBlock] at h
  obtain ⟨⟨built, db⟩, hbuild, h⟩ := bind_eq_ok_iff.mp h
  obtain ⟨prevHash, -, h⟩ := bind_eq_ok_iff.mp h
  rw [← Except.ok.inj h]
  refine ⟨rfl, fun y hy => ?_⟩
  rw [DB.getString_putString, if_neg (by rintro rfl; exact hy IsInternal.digest),
    DB.getString_putString, if_neg (by rintro rfl; exact hy (IsInternal.block newBlkSeq))]
  exact getString_build hbuild (IsInternal.blockNode newBlkSeq) hy

namespace Inv

variable {ws : List Written} {t t' : Threads} {a : Step}

theorem keepsDocuments (h : Inv key ws t) (hkey : Reserved key)
    (hkeeps : KeepsDocuments t.ledger t'.ledger) (hpending : Pending key t'.setting) :
    Inv key ws t' := by
  have hsame : ∀ y, histPrefix key <+: y →
      t'.ledger.db.getString y = t.ledger.db.getString y := fun y hy =>
    hkeeps.getString y fun hname => hkey y hname hy
  have hhist : ∀ b, t'.ledger.db.getString (histKey key b) = t.ledger.db.getString (histKey key b) :=
    fun b => hsame _ (List.prefix_append _ _)
  constructor
  · exact hkeeps.pre.trans h.indexed
  · intro b d hd
    rw [hhist] at hd
    exact h.stored b d hd
  · intro b d hw
    rw [hhist]
    exact h.kept b d hw
  · intro y hy hsome
    rw [hsame y hy] at hsome
    exact h.only y hy hsome
  · exact h.numbered
  · exact hpending

/-- **A document is stored.** -/
theorem putDocument {b : ℕ} {e : Bytes × Bytes} (h : Inv key ws t)
    (hapart : ¬ histPrefix key <+: e.1) (hnumbered : Numbered b e.2)
    (hledger : t'.ledger = t.ledger.putDocument b e) (hpending : Pending key t'.setting) :
    Inv key (ws ++ [⟨e.1, b, e.2⟩]) t' := by
  have hget : ∀ y, t'.ledger.db.getString y =
      if y = histKey e.1 b then some e.2 else t.ledger.db.getString y := fun y => by
    rw [hledger]
    exact DB.getString_putString _ _ _ _
  -- a record under the prefix of the key is one of the key
  have hown : ∀ y, histPrefix key <+: y → y = histKey e.1 b → e.1 = key := by
    rintro y hy rfl
    exact (histKey_eq_or_prefix_key hy).resolve_right hapart
  constructor
  · rw [hledger]
    exact h.indexed
  · intro b' d hd
    rw [hget] at hd
    split_ifs at hd with heq
    · obtain rfl := Option.some.inj hd
      obtain rfl := hown _ (List.prefix_append _ _) heq
      rw [histKey_inj.mp heq]
      exact List.mem_append_right _ (List.mem_singleton_self _)
    · exact List.mem_append_left _ (h.stored b' d hd)
  · intro b' d hw
    rw [hget]
    split_ifs with heq
    · rfl
    · rcases List.mem_append.mp hw with hw | hw
      · exact h.kept b' d hw
      · obtain ⟨rfl, rfl, rfl⟩ := Written.mk.inj (List.mem_singleton.mp hw)
        exact absurd rfl heq
  · intro y hy hsome
    rw [hget] at hsome
    split_ifs at hsome with heq
    · exact ⟨b, by rw [heq, hown y hy heq]⟩
    · exact h.only y hy hsome
  · intro b' d hw
    rcases List.mem_append.mp hw with hw | hw
    · exact h.numbered b' d hw
    · obtain ⟨-, rfl, rfl⟩ := Written.mk.inj (List.mem_singleton.mp hw)
      exact hnumbered
  · exact hpending

/-- **Every step** adds the document that it stores. -/
theorem step (h : Inv key ws t) (hkey : Reserved key) (hapart : a.Apart key)
    (hstep : Sqlledger.step H cfg t a = some t') : Inv key (ws ++ writtenBy t a) t' := by
  have hrest (hnone : writtenBy t a = []) (hkeeps : KeepsDocuments t.ledger t'.ledger)
      (hpending : Pending key t'.setting) : Inv key (ws ++ writtenBy t a) t' := by
    rw [hnone, List.append_nil]
    exact h.keepsDocuments hkey hkeeps hpending
  cases stepped_of_step hstep with
  | beginSet hidle hdocs =>
    apply hrest rfl ⟨rfl, fun _ _ => rfl⟩
    intro e he
    obtain ⟨hk, hd⟩ := List.of_mem_zip he
    exact ⟨hapart e.1 hk, numbered_documents hdocs e.2 hd⟩
  | putDocument hstoring =>
    have hpending := h.pending
    rw [hstoring] at hpending
    rw [writtenBy, hstoring]
    obtain ⟨he, hnumbered⟩ := hpending _ List.mem_cons_self
    exact h.putDocument he hnumbered rfl fun e' he' => hpending e' (List.mem_cons_of_mem _ he')
  | setIndexed hstoring hset => exact hrest rfl (keepsDocuments_set h.indexed hset) trivial
  | appendLog hlogging hchunk => exact hrest rfl ⟨rfl, fun _ _ => rfl⟩ trivial
  | endSet hadvancing => exact hrest rfl ⟨rfl, fun _ _ => rfl⟩ trivial
  | cutBlock hsleeping hbuffer => exact hrest rfl ⟨rfl, fun _ _ => rfl⟩ h.pending
  | buildTxn hbuilding hbuild => exact hrest rfl (keepsDocuments_buildTxn hbuild) h.pending
  | buildBlock hbuilding hbuild => exact hrest rfl (keepsDocuments_buildBlock hbuild) h.pending

end Inv

/-! ### Runs -/

variable {t : Threads} {steps : List Step} {n : ℕ}

/-- **In a run** the store has exactly the documents of the key under its prefix. -/
theorem inv_runs (hkey : Reserved key) (hapart : ∀ a ∈ steps, a.Apart key)
    (hrun : Run.runs (step H cfg) ⟨emptyLedger, .idle, .sleeping⟩ steps = some t) :
    Inv key (written H cfg ⟨emptyLedger, .idle, .sleeping⟩ steps) t := by
  revert hapart
  apply Run.runs_induction (motive := fun steps t => (∀ a ∈ steps, a.Apart key) →
    Inv key (written H cfg ⟨emptyLedger, .idle, .sleeping⟩ steps) t) _ _ hrun
  · intro _
    exact
      { indexed := rfl
        stored := fun _ _ hd => nomatch hd
        kept := fun _ _ hw => nomatch hw
        only := fun _ _ hsome => nomatch hsome
        numbered := fun _ _ hw => nomatch hw
        pending := trivial }
  · intro steps a t t' hrun ih hstep hapart
    rw [written_concat a hrun]
    exact (ih fun b hb => hapart b (List.mem_append_left _ hb)).step hkey
      (hapart a (List.mem_append_right _ (List.mem_singleton_self a))) hstep

/-- The blocks of a key, in the order in which its records stand in the store. -/
theorem Inv.exists_blocks {ws : List Written} (h : Inv key ws t) :
    ∃ bs : List ℕ, bs.Pairwise ByName ∧ bs.toFinset = blocksOf key ws ∧
      List.Forall₂ (fun b d => ⟨key, b, d⟩ ∈ ws) bs ((recordsOf t.ledger.db key).map Prod.snd) := by
  have hord : (recordsOf t.ledger.db key).Ordered := (ordered_records _).filter _
  have hget : ∀ e ∈ recordsOf t.ledger.db key, t.ledger.db.getString e.1 = some e.2 := by
    intro e he
    rw [← lookup_records]
    exact StdMap.lookup_of_mem (ordered_records _) (List.mem_of_mem_filter he)
  have hblock : ∀ e ∈ recordsOf t.ledger.db key, ∃ b, e.1 = histKey key b := by
    intro e he
    have hpre := List.isPrefixOf_iff_prefix.mp (List.mem_filter.mp he).2
    exact h.only e.1 hpre (by rw [hget e he]; rfl)
  choose! block hblock using hblock
  refine ⟨(recordsOf t.ledger.db key).map block, ?_, ?_, ?_⟩
  · rw [List.pairwise_map]
    apply hord.imp_of_mem
    intro e e' he he' hlt
    rw [hblock e he, hblock e' he'] at hlt
    exact byName_of_histKey_lt hlt
  · ext b
    rw [List.mem_toFinset, List.mem_map, mem_blocksOf]
    constructor
    · rintro ⟨e, he, rfl⟩
      refine ⟨e.2, h.stored _ _ ?_⟩
      rw [← hblock e he]
      exact hget e he
    · rintro ⟨d, hw⟩
      obtain ⟨d', hd'⟩ := Option.isSome_iff_exists.mp (h.kept b d hw)
      rw [← lookup_records] at hd'
      have hmem : (histKey key b, d') ∈ recordsOf t.ledger.db key := by
        refine List.mem_filter.mpr ⟨PutLog.mem_of_lookup hd', ?_⟩
        exact List.isPrefixOf_iff_prefix.mpr (List.prefix_append _ _)
      exact ⟨_, hmem, (histKey_inj.mp (hblock _ hmem)).symm⟩
  · rw [List.forall₂_map_left_iff, List.forall₂_map_right_iff, List.forall₂_same]
    intro e he
    apply h.stored
    rw [← hblock e he]
    exact hget e he

/-- `GetHistory` returns as many documents of the key as there are, `n` at most, in the order of their
blocks. -/
def ReturnsHistory (t : Threads) (ws : List Written) (key : Bytes) (n : ℕ) : Prop :=
  ∃ docs bs, t.ledger.getHistory key n = some docs ∧ bs.length = min n (blocksOf key ws).card ∧
    bs.Pairwise (· < ·) ∧ List.Forall₂ (fun b d => ⟨key, b, d⟩ ∈ ws) bs docs

/-- The names of the first `n` records of the key stand in the order of their numbers. -/
def OrderedByName (bs : Finset ℕ) (n : ℕ) : Prop :=
  ∀ a ∈ bs, ∀ b ∈ bs, ByName a b → (bs.filter fun c => ByName c b).card < n → a < b

/-- **`GetHistory`** is right exactly if the first `n` blocks of the key, taken in the order of their
names, are in the order of their numbers. -/
theorem returnsHistory_iff (hkey : Reserved key) (hapart : ∀ a ∈ steps, a.Apart key)
    (hrun : Run.runs (step H cfg) ⟨emptyLedger, .idle, .sleeping⟩ steps = some t) :
    ReturnsHistory t (written H cfg ⟨emptyLedger, .idle, .sleeping⟩ steps) key n ↔
      min n (blocksOf key (written H cfg ⟨emptyLedger, .idle, .sleeping⟩ steps)).card < 2 ^ 31 ∧
        OrderedByName (blocksOf key (written H cfg ⟨emptyLedger, .idle, .sleeping⟩ steps)) n := by
  have h := inv_runs hkey hapart hrun
  generalize written H cfg ⟨emptyLedger, .idle, .sleeping⟩ steps = ws at h ⊢
  obtain ⟨bs, hsorted, hblocks, hdocs⟩ := h.exists_blocks
  have hnodup : bs.Nodup := by
    apply hsorted.imp
    rintro a _ hlt rfl
    exact Std.Asymm.asymm _ _ hlt hlt
  have hcard : (blocksOf key ws).card = (recordsOf t.ledger.db key).length := by
    rw [← hblocks, List.toFinset_card_of_nodup hnodup, hdocs.length_eq, List.length_map]
  have htake : List.Forall₂ (fun b d => ⟨key, b, d⟩ ∈ ws) (bs.take n)
      (((recordsOf t.ledger.db key).take n).map Prod.snd) := by
    rw [List.map_take]
    exact List.forall₂_take n hdocs
  -- the condition is about the first blocks
  have horder : OrderedByName (blocksOf key ws) n ↔ (bs.take n).Pairwise (· < ·) := by
    rw [SortedPrefix.pairwise_take_iff hsorted, OrderedByName, ← hblocks]
    simp only [List.mem_toFinset]
    refine forall₄_congr fun a _ b _ => ?_
    have hfilter : (bs.toFinset.filter fun c => ByName c b) =
        (bs.filter fun c => decide (ByName c b)).toFinset := by
      ext c
      simp
    rw [hfilter, List.toFinset_card_of_nodup (hnodup.filter _)]
  rw [ReturnsHistory, getHistory_eq, hcard, horder]
  constructor
  · rintro ⟨docs, bs', hget, hlen, hlt, hmem⟩
    split_ifs at hget with hint
    obtain rfl := Option.some.inj hget
    -- a document belongs to one block only
    have hunique : Relator.LeftUnique fun b d => (⟨key, b, d⟩ : Written) ∈ ws :=
      fun b b' d hb hb' => (h.numbered b d hb).unique (h.numbered b' d hb')
    obtain rfl := List.left_unique_forall₂' hunique hmem htake
    exact ⟨hint, hlt⟩
  · rintro ⟨hint, hlt⟩
    refine ⟨_, bs.take n, if_pos hint, ?_, hlt, htake⟩
    rw [List.length_take, hdocs.length_eq, List.length_map]

/-- No name of a record that is not a document starts with an `a`. -/
theorem reserved_a : Reserved (str "a") := by
  have hhead : ∀ y, IsInternal y → ∀ b ∈ y.head?, b ≠ 97 := by
    intro y hy b hb
    cases hy with
    | digest => obtain rfl : 100 = b := Option.some.inj hb; decide
    | txn tid => obtain rfl : 116 = b := Option.some.inj hb; decide
    | txnNode tid l i => obtain rfl : 116 = b := Option.some.inj hb; decide
    | block seq => obtain rfl : 98 = b := Option.some.inj hb; decide
    | blockNode seq l i => obtain rfl : 98 = b := Option.some.inj hb; decide
    | indexed hname =>
      rcases hname with rfl | ⟨n, x, rfl⟩
      · obtain rfl : 67 = b := Option.some.inj hb
        decide
      · obtain rfl : 67 = b := Option.some.inj hb
        decide
  rintro y hy ⟨r, rfl⟩
  exact hhead _ hy 97 rfl rfl

/-- A transaction and the block with it. -/
def oneBlock : List Step :=
  [.beginSet [str "a"] [str "v"] 7, .putDocument, .setIndexed, .appendLog, .endSet, .cutBlock, .buildTxn,
    .buildBlock]

theorem returnsHistory_iff_one : ∃ t,
    Run.runs (step (Hash.ofTable []) {}) ⟨emptyLedger, .idle, .sleeping⟩ oneBlock = some t ∧
      (ReturnsHistory t (written (Hash.ofTable []) {} ⟨emptyLedger, .idle, .sleeping⟩ oneBlock)
          (str "a") 1 ↔
        min 1 (blocksOf (str "a")
            (written (Hash.ofTable []) {} ⟨emptyLedger, .idle, .sleeping⟩ oneBlock)).card < 2 ^ 31 ∧
          OrderedByName (blocksOf (str "a")
            (written (Hash.ofTable []) {} ⟨emptyLedger, .idle, .sleeping⟩ oneBlock)) 1) := by
  have hsome : (Run.runs (step (Hash.ofTable []) {}) ⟨emptyLedger, .idle, .sleeping⟩
      oneBlock).isSome := by decide +kernel
  obtain ⟨t, hrun⟩ := Option.isSome_iff_exists.mp hsome
  have hapart : ∀ a ∈ oneBlock, a.Apart (str "a") := by
    intro a ha
    simp only [oneBlock, List.mem_cons, List.not_mem_nil, or_false] at ha
    rcases ha with rfl | rfl | rfl | rfl | rfl | rfl | rfl | rfl
    · intro key' hkey'
      rw [List.mem_singleton.mp hkey']
      decide
    all_goals trivial
  exact ⟨t, hrun, returnsHistory_iff reserved_a hapart hrun⟩

/-- A document of the key `a|b` is returned for the key `a`, which was never written. -/
theorem getHistory_of_other_key : ∃ t,
    Run.runs (step (Hash.ofTable []) {}) ⟨emptyLedger, .idle, .sleeping⟩
        [.beginSet [str "a|b"] [str "v"] 7, .putDocument] = some t ∧
      t.ledger.getHistory (str "a") 1 = some [str "0|txn0|0|a|b|v|7"] ∧
      blocksOf (str "a") (written (Hash.ofTable []) {} ⟨emptyLedger, .idle, .sleeping⟩
        [.beginSet [str "a|b"] [str "v"] 7, .putDocument]) = ∅ ∧
      ¬ ReturnsHistory t (written (Hash.ofTable []) {} ⟨emptyLedger, .idle, .sleeping⟩
        [.beginSet [str "a|b"] [str "v"] 7, .putDocument]) (str "a") 1 := by
  have hone : (Run.runs (step (Hash.ofTable []) {}) ⟨emptyLedger, .idle, .sleeping⟩
      [.beginSet [str "a|b"] [str "v"] 7, .putDocument]).map
        (fun t => t.ledger.getHistory (str "a") 1) = some (some [str "0|txn0|0|a|b|v|7"]) := by
    decide +kernel
  have hblocks : blocksOf (str "a") (written (Hash.ofTable []) {} ⟨emptyLedger, .idle, .sleeping⟩
      [.beginSet [str "a|b"] [str "v"] 7, .putDocument]) = ∅ := by decide +kernel
  obtain ⟨t, hrun, hget⟩ := Option.map_eq_some_iff.mp hone
  refine ⟨t, hrun, hget, hblocks, ?_⟩
  rintro ⟨docs, bs, hdocs, hlen, -, hmem⟩
  rw [hget] at hdocs
  obtain rfl := Option.some.inj hdocs
  rw [hblocks, Finset.card_empty, Nat.min_zero] at hlen
  exact absurd (hlen.symm.trans hmem.length_eq) (by decide)

end LedgerDatabase.Sqlledger
