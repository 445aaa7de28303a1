import LedgerDatabase.Distributed.BatchGet
import LedgerDatabase.Distributed.Equiv.Interactive
import LedgerDatabase.Ledgerdb.Equiv.GetValues
import LedgerDatabase.Library.Rank
import LedgerDatabase.Qldb.Equiv.GetProof

/-!
# The timestamps of a read set

`BufferClient::BatchGet` goes over the values of the promise in the order of their keys, and takes
the timestamps in the order in which the shard has reported them.  So the read set has the reported
timestamps exactly when they are in the order of the keys (`InKeyOrder`, `readSet_reported_iff`).
-/

namespace LedgerDatabase.Distributed

open Qldb Sqlledger
open BuildStore (Report)
open Rank (rank)

/-! ### The loop over the values -/

theorem UnorderedMap.lookup_assign {V : Type} (m : UnorderedMap V) (key k : Bytes) (val : V) :
    (m.assign key val).lookup k = if k = key then some val else m.lookup k := by
  induction m with
  | nil => rw [assign, StdMap.lookup_cons_ite]
  | cons e m ih =>
    obtain ⟨k', v⟩ := e
    rw [assign]
    by_cases hk : k' = key
    · subst hk
      rw [if_pos rfl, StdMap.lookup_cons_ite, StdMap.lookup_cons_ite]
      by_cases h : k = k'
      · rw [if_pos h, if_pos h]
      · rw [if_neg h, if_neg h, if_neg h]
    · rw [if_neg hk, StdMap.lookup_cons_ite, StdMap.lookup_cons_ite, ih]
      by_cases h : k = k'
      · rw [if_pos h, if_neg (h ▸ hk), if_pos h]
      · rw [if_neg h, if_neg h]

namespace BufferClient

variable {timestamps : List ℕ} {count : ℕ} {values : StdMap Bytes} {txn txn' : Transaction}

theorem lookup_addReads_of_not_mem (h : addReads timestamps count values txn = .ok txn') {k : Bytes}
    (hk : k ∉ values.map (·.1)) : txn'.readSet.lookup k = txn.readSet.lookup k := by
  induction values generalizing count txn with
  | nil =>
    obtain rfl := Except.ok.inj h
    rfl
  | cons e values ih =>
    obtain ⟨key, value⟩ := e
    rw [List.map_cons, List.mem_cons, not_or] at hk
    rw [addReads] at h
    obtain ⟨t, -, h⟩ := bind_eq_ok_iff.mp h
    rw [ih h hk.2, Transaction.addReadSet, UnorderedMap.lookup_assign, if_neg hk.1]

/-- The value at index `i` gets the timestamp at that index. -/
theorem lookup_addReads (hvalues : values.Ordered)
    (h : addReads timestamps count values txn = .ok txn') {i : ℕ} {k : Bytes}
    (hi : (values.map (·.1))[i]? = some k) :
    ∃ t, timestamps[count + i]? = some t ∧ txn'.readSet.lookup k = some { timestamp := t } := by
  induction values generalizing count txn i with
  | nil => cases hi
  | cons e values ih =>
    obtain ⟨key, value⟩ := e
    obtain ⟨hhead, htail⟩ := List.pairwise_cons.mp hvalues
    rw [addReads] at h
    obtain ⟨t, ht, h⟩ := bind_eq_ok_iff.mp h
    cases i with
    | zero =>
      obtain rfl : key = k := Option.some.inj hi
      refine ⟨t, ?_, ?_⟩
      · rw [at?] at ht
        rw [Nat.add_zero]
        cases hget : timestamps[count]? with
        | none => rw [hget] at ht; cases ht
        | some t' => rw [hget] at ht; rw [Except.ok.inj ht]
      · have hnot : key ∉ values.map (·.1) := by
          intro hmem
          obtain ⟨e', he', heq⟩ := List.mem_map.mp hmem
          exact List.lt_irrefl _ (heq ▸ hhead e' he')
        rw [lookup_addReads_of_not_mem h hnot, Transaction.addReadSet,
          UnorderedMap.lookup_assign, if_pos rfl]
    | succ i =>
      obtain ⟨t', ht', hlookup⟩ := ih htail h hi
      exact ⟨t', by rw [← ht']; congr 1; omega, hlookup⟩

end BufferClient

/-! ### What is reported -/

namespace BuildStore

/-- The transaction has read the reported timestamps. -/
def Recorded (reports : List Report) (txn : Transaction) : Prop :=
  ∀ r ∈ reports, txn.readSet.lookup r.key = some { timestamp := r.timestamp }

/-- The timestamp that stands where the key of a report has its place in the order of the keys is
the one of the report. -/
def InKeyOrder (reports : List Report) : Prop :=
  ∀ r ∈ reports, (reports.map (·.timestamp))[rank (reports.map (·.key)) r.key]? = some r.timestamp

instance (reports : List Report) : Decidable (InKeyOrder reports) :=
  inferInstanceAs (Decidable (∀ r ∈ reports, _))

/-- Keys that are reported in increasing order. -/
theorem inKeyOrder_of_sorted {reports : List Report}
    (h : (reports.map (·.key)).Pairwise (· < ·)) : InKeyOrder reports := by
  intro r hr
  have hrank := Rank.getElem?_rank_self h (List.mem_map_of_mem hr)
  rw [List.getElem?_map, Option.map_eq_some_iff] at hrank
  obtain ⟨r', hr', hkey⟩ := hrank
  have hmem : r' ∈ reports := List.mem_of_getElem? hr'
  -- the key has one report
  have heq : r' = r := List.inj_on_of_nodup_map (Rank.nodup_of_sorted h) hmem hr hkey
  rw [List.getElem?_map, hr', heq]
  rfl

/-- The loop over the values of a promise records what was reported if that is in the order of the
keys. -/
theorem recorded_iff {reports : List Report} {values : StdMap Bytes} {txn txn' : Transaction}
    (hvalues : values.Ordered) (hkeys : ∀ k, k ∈ values.map (·.1) ↔ k ∈ reports.map (·.key))
    (h : BufferClient.addReads (reports.map (·.timestamp)) 0 values txn = .ok txn') :
    Recorded reports txn' ↔ InKeyOrder reports := by
  have hsorted : (values.map (·.1)).Pairwise (· < ·) := List.pairwise_map.mpr hvalues
  apply forall₂_congr
  intro r hr
  have hrank := Rank.getElem?_rank hsorted hkeys (List.mem_map_of_mem hr)
  obtain ⟨t, ht, hlookup⟩ := BufferClient.lookup_addReads hvalues h hrank
  rw [Nat.zero_add] at ht
  rw [hlookup, ht]
  simp

/-! ### `LEDGERDB` -/

section Ledgerdb

open Ledgerdb (LedgerDB)
open Ledgerdb.LedgerDB (Found)

/-- The ledgers differ in the keys without versions that reads have entered. -/
def SameHeads (s s' : LedgerDB) : Prop :=
  s'.db = s.db ∧ ∀ k, (s'.skiplistHead.lookup k).getD 0 = (s.skiplistHead.lookup k).getD 0

theorem getValue_congr {s s' s₁ : LedgerDB} {key : Bytes} {f : Found} (hsame : SameHeads s s')
    (h : s.getValue key = .ok (f, s₁)) :
    (∃ s₁', s'.getValue key = .ok (f, s₁')) ∧ SameHeads s s₁ := by
  constructor
  · unfold LedgerDB.getValue at h ⊢
    simp only [hsame.1, hsame.2] at h ⊢
    obtain ⟨node, hnode, h⟩ := bind_eq_ok_iff.mp h
    rw [hnode, ok_bind]
    split_ifs at h ⊢
    · obtain ⟨rfl, -⟩ := Prod.mk.inj (Except.ok.inj h)
      exact ⟨_, rfl⟩
    · obtain ⟨skipnode, hskip, h⟩ := bind_eq_ok_iff.mp h
      obtain ⟨found, hfound, h⟩ := bind_eq_ok_iff.mp h
      obtain ⟨rfl, -⟩ := Prod.mk.inj (Except.ok.inj h)
      rw [hskip, ok_bind, hfound]
      exact ⟨_, rfl⟩
  · rw [LedgerDB.getValue_state h]
    refine ⟨rfl, fun k => ?_⟩
    rw [StdMap.lookup_assign]
    split_ifs with hk
    · rw [hk]
      rfl
    · rfl

/-- The answers of `GetValues` are what the ledger had before. -/
theorem reports_getValues {s s' s₁ : LedgerDB} {rand : List (List (List Bool))} {keys : List Bytes}
    {fs : List Found} (hsame : SameHeads s' s) (h : s'.getValues keys = .ok (fs, s₁)) :
    reports (.ledgerdb ⟨s, rand⟩) keys = (keys.zip fs).map fun e => ⟨e.1, e.2.timestamp⟩ := by
  induction keys generalizing s' fs with
  | nil => rfl
  | cons key keys ih =>
    rw [LedgerDB.getValues] at h
    obtain ⟨⟨f, s₂⟩, hvalue, h⟩ := bind_eq_ok_iff.mp h
    obtain ⟨⟨fs', s₃⟩, hrest, h⟩ := bind_eq_ok_iff.mp h
    obtain ⟨rfl, rfl⟩ := Prod.mk.inj (Except.ok.inj h)
    obtain ⟨⟨s₄, hs⟩, hsame₂⟩ := getValue_congr hsame hvalue
    have hreport : report key (.ledgerdb ⟨s, rand⟩) = some ⟨key, f.timestamp⟩ := by
      simp only [report, hs]
      rfl
    have hsame' : SameHeads s₂ s := ⟨hsame.1.trans hsame₂.1.symm, fun k => by rw [hsame.2, hsame₂.2]⟩
    rw [reports, List.filterMap_cons, hreport, List.zip_cons_cons, List.map_cons]
    exact congrArg _ (ih hsame' hrest)

theorem length_getValues {s s' : LedgerDB} {keys : List Bytes} {fs : List Found}
    (h : s.getValues keys = .ok (fs, s')) : fs.length = keys.length := by
  induction keys generalizing s fs with
  | nil =>
    obtain ⟨rfl, -⟩ := Prod.mk.inj (Except.ok.inj h)
    rfl
  | cons key keys ih =>
    rw [LedgerDB.getValues] at h
    obtain ⟨⟨f, s₂⟩, -, h⟩ := bind_eq_ok_iff.mp h
    obtain ⟨⟨fs', s₃⟩, hrest, h⟩ := bind_eq_ok_iff.mp h
    obtain ⟨rfl, rfl⟩ := Prod.mk.inj (Except.ok.inj h)
    rw [List.length_cons, List.length_cons, ih hrest]

end Ledgerdb

/-! ### `SQLLEDGER` -/

/-- The keys and timestamps of a reply are those of the reports. -/
structure Lists (reports : List Report) (reply : TxnReply) : Prop where
  keys : reply.values.map (·.key) = reports.map (·.key)
  timestamps : reply.timestamps = reports.map (·.timestamp)

theorem getCommitted_congr {s s' s₁ : SQLLedger} {key result : Bytes}
    (hindexed : s.indexed = s'.indexed) (hsame : s.db.SameAnswers s'.db)
    (h : s.getCommitted key = .ok (result, s₁)) :
    (∃ s₁', s'.getCommitted key = .ok (result, s₁')) ∧
      s₁.indexed = s'.indexed ∧ s₁.db.SameAnswers s'.db := by
  obtain ⟨⟨r, db₁⟩, hget, h⟩ := bind_eq_ok_iff.mp h
  obtain ⟨rfl, rfl⟩ := Prod.mk.inj (Except.ok.inj h)
  refine ⟨?_, hindexed, (QLBTree.tryGet_sameAnswers hget).symm.trans hsame⟩
  obtain ⟨db₁', hget', -⟩ := QLBTree.tryGet_congr hsame hget
  rw [SQLLedger.getCommitted, ← hindexed, QLBTree.get, hget']
  exact ⟨_, rfl⟩

theorem lists_sqlBatchGet {s s' s₁ : SQLLedger} {keys : List Bytes} {reply reply' : TxnReply}
    {before : List Report} (hindexed : s'.indexed = s.indexed) (hsame : s'.db.SameAnswers s.db)
    (hbefore : Lists before reply)
    (h : VersionedKVStore.sqlBatchGet keys reply s' = .ok (reply', s₁)) :
    reply'.status = reply.status ∧ Lists (before ++ reports (.sqlledger s) keys) reply' := by
  induction keys generalizing s' reply before with
  | nil =>
    obtain ⟨rfl, -⟩ := Prod.mk.inj (Except.ok.inj h)
    exact ⟨rfl, by rwa [reports, List.filterMap_nil, List.append_nil]⟩
  | cons key keys ih =>
    rw [VersionedKVStore.sqlBatchGet] at h
    obtain ⟨⟨result, s₂⟩, hget, h⟩ := bind_eq_ok_iff.mp h
    obtain ⟨⟨s₃, hget'⟩, hindexed', hsame'⟩ := getCommitted_congr hindexed hsame hget
    rw [reports, List.filterMap_cons]
    by_cases hresult : result.length = 0
    · have hreport : report key (.sqlledger s) = none := by
        rw [report, hget']
        exact if_pos hresult
      rw [hreport]
      dsimp only at h
      rw [if_pos hresult] at h
      exact ih hindexed' hsame' hbefore h
    · dsimp only at h
      rw [if_neg hresult] at h
      obtain ⟨⟨kv, t⟩, hentry, h⟩ := bind_eq_ok_iff.mp h
      have hreport : report key (.sqlledger s) = some ⟨kv.key, t⟩ := by
        rw [report, hget']
        refine (if_neg hresult).trans ?_
        rw [hentry]
        rfl
      have hbefore' : Lists (before ++ [⟨kv.key, t⟩])
          { reply with values := reply.values ++ [kv], timestamps := reply.timestamps ++ [t] } := by
        constructor
        · simp [hbefore.keys]
        · simp [hbefore.timestamps]
      rw [hreport, List.append_cons]
      have hrest := ih hindexed' hsame' hbefore' h
      exact hrest

/-! ### `AMZQLDB` -/

theorem qldbEntry_congr {q q' q₁ : QLDB} {tip : ℕ} {key : Bytes} {doc : Document} {p : QLDBProof}
    (hsame : q.db.SameAnswers q'.db)
    (h : VersionedKVStore.qldbEntry tip key doc q = .ok (p, q₁)) :
    (∃ q₁', VersionedKVStore.qldbEntry tip key doc q' = .ok (p, q₁')) ∧
      q.indexed = q₁.indexed ∧ q.db.SameAnswers q₁.db := by
  obtain ⟨⟨proofres, q₂⟩, hproof, h⟩ := bind_eq_ok_iff.mp h
  obtain ⟨rfl, rfl⟩ := Prod.mk.inj (Except.ok.inj h)
  obtain ⟨⟨q₃, hproof'⟩, hstep⟩ := QLDB.getProof_congr hsame hproof
  refine ⟨?_, hstep⟩
  rw [VersionedKVStore.qldbEntry, hproof']
  exact ⟨_, rfl⟩

theorem reports_qldbProofs {q q' q₁ : QLDB} {tip : ℕ} {digest : Bytes} {keys : List Bytes}
    {proofs : List QLDBProof} (hdigest : q.digest (str "test") = .ok ⟨tip, digest⟩)
    (hindexed : q'.indexed = q.indexed) (hsame : q'.db.SameAnswers q.db)
    (h : VersionedKVStore.qldbProofs tip keys q' = .ok (proofs, q₁)) :
    reports (.amzqldb q) keys = proofs.map fun p => ⟨p.key, p.time.toNat⟩ := by
  induction keys generalizing q' proofs with
  | nil =>
    obtain ⟨rfl, -⟩ := Prod.mk.inj (Except.ok.inj h)
    rfl
  | cons key keys ih =>
    rw [VersionedKVStore.qldbProofs] at h
    obtain ⟨⟨result, q₂⟩, hget, h⟩ := bind_eq_ok_iff.mp h
    obtain ⟨⟨q₃, hget'⟩, hindexed₂, hsame₂⟩ := QLDB.getCommitted_congr hindexed hsame hget
    rw [reports, List.filterMap_cons]
    cases result with
    | none =>
      have hreport : report key (.amzqldb q) = none := by
        rw [report, hdigest, hget']
        rfl
      rw [hreport]
      exact ih (hindexed₂.symm.trans hindexed) (hsame₂.symm.trans hsame) h
    | some chunk =>
      obtain ⟨⟨p, q₄⟩, hentry, h⟩ := bind_eq_ok_iff.mp h
      obtain ⟨⟨proofs', q₅⟩, hrest, h⟩ := bind_eq_ok_iff.mp h
      obtain ⟨rfl, rfl⟩ := Prod.mk.inj (Except.ok.inj h)
      obtain ⟨⟨q₆, hentry'⟩, hindexed₃, hsame₃⟩ :=
        qldbEntry_congr (hsame₂.symm.trans hsame) hentry
      have hreport : report key (.amzqldb q) = some ⟨p.key, p.time.toNat⟩ := by
        rw [report, hdigest, hget']
        show ((VersionedKVStore.qldbEntry tip key (Document.ofChunk chunk) q).toOption.bind
          fun e : QLDBProof × QLDB => some (⟨e.1.key, e.1.time.toNat⟩ : Report)) = _
        rw [hentry']
        rfl
      rw [hreport]
      exact congrArg _ (ih ((hindexed₃.symm.trans hindexed₂.symm).trans hindexed)
        ((hsame₃.symm.trans hsame₂.symm).trans hsame) hrest)

end BuildStore

/-! ### `BatchGet` -/

theorem Promise.insertValues_spec {values : StdMap Bytes} (hvalues : values.Ordered)
    (vals : StdMap Bytes) : (insertValues values vals).Ordered ∧
      ∀ k, k ∈ (insertValues values vals).map (·.1) ↔ k ∈ values.map (·.1) ∨ k ∈ vals.map (·.1) := by
  induction vals generalizing values with
  | nil => exact ⟨hvalues, fun k => by simp [insertValues]⟩
  | cons e vals ih =>
    rw [insertValues, List.foldl_cons, ← insertValues]
    split_ifs with hsome
    · refine ⟨(ih hvalues).1, fun k => ?_⟩
      have hmem : e.1 ∈ values.map (·.1) := by
        obtain ⟨v, hv⟩ := Option.isSome_iff_exists.mp hsome
        obtain ⟨l₁, l₂, rfl, -⟩ := List.lookup_eq_some_iff.mp hv
        simp
      rw [(ih hvalues).2, List.map_cons, List.mem_cons]
      constructor
      · exact Or.imp_right Or.inr
      · rintro (h | rfl | h)
        exacts [Or.inl h, Or.inl hmem, Or.inr h]
    · have hassign := hvalues.assign e.1 e.2
      refine ⟨(ih hassign).1, fun k => ?_⟩
      rw [(ih hassign).2, StdMap.keys_assign, List.map_cons, List.mem_cons]
      tauto

theorem BufferClient.valuesOf_eq (reply : TxnReply) :
    valuesOf reply = Promise.insertValues [] (reply.values.map fun v => (v.key, v.val)) := by
  rw [Promise.insertValues, List.foldl_map]
  rfl

namespace BuildStore

variable {H : Bytes → Hash} {b b' : BufferClient}

/-- A reply that lists the reports is recorded if it is in the order of the keys. -/
theorem Lists.recorded_iff {reports : List Report} {reply : TxnReply} (hlists : Lists reports reply)
    (hstatus : reply.status = .ok) (h : b.batchGet reply = .ok b') :
    Recorded reports b'.txn ↔ InKeyOrder reports := by
  rw [BufferClient.batchGet, if_pos hstatus] at h
  obtain ⟨txn, hadd, h⟩ := bind_eq_ok_iff.mp h
  obtain rfl := Except.ok.inj h
  obtain ⟨hordered, hkeys⟩ := Promise.insertValues_spec StdMap.ordered_nil
    (reply.values.map fun v => (v.key, v.val))
  rw [hlists.timestamps, BufferClient.valuesOf_eq] at hadd
  apply BuildStore.recorded_iff hordered _ hadd
  intro k
  rw [hkeys, ← hlists.keys, List.map_map]
  simp [Function.comp_def]

/-- **The read set has the timestamps that the shard has reported** exactly where these are in the
order of the keys: at the place that a key has among the returned keys, in their order, stands the
timestamp of this key. -/
theorem readSet_reported_iff (s : BuildStore) (h : b.batchGetFrom H s = .ok b') :
    (∀ r ∈ s.reports b.buffer, b'.txn.readSet.lookup r.key = some { timestamp := r.timestamp }) ↔
      InKeyOrder (s.reports b.buffer) := by
  cases s with
  | ledgerdb s =>
    obtain ⟨digest, -, h⟩ := bind_eq_ok_iff.mp h
    obtain ⟨⟨reply, s₁⟩, hget, h⟩ := bind_eq_ok_iff.mp h
    obtain ⟨⟨values, ldb⟩, hvalues, hget⟩ := bind_eq_ok_iff.mp hget
    obtain ⟨rfl, rfl⟩ := Prod.mk.inj (Except.ok.inj hget)
    have hreports : reports (.ledgerdb s) b.buffer = _ :=
      reports_getValues ⟨rfl, fun _ => rfl⟩ hvalues
    have hlength := length_getValues hvalues
    apply Lists.recorded_iff _ rfl h
    rw [hreports]
    constructor
    · simp [Function.comp_def]
    · rw [List.map_map]
      show [] ++ values.map (·.timestamp) = (b.buffer.zip values).map ((·.timestamp) ∘ Prod.snd)
      rw [List.nil_append, ← List.map_map, List.map_snd_zip hlength.le]
  | sqlledger s =>
    obtain ⟨digest, -, h⟩ := bind_eq_ok_iff.mp h
    obtain ⟨⟨reply, s₁⟩, hget, h⟩ := bind_eq_ok_iff.mp h
    have hnil : Lists [] { digest } := ⟨rfl, rfl⟩
    obtain ⟨hstatus, hlists⟩ := lists_sqlBatchGet rfl (DB.SameAnswers.refl s.db) hnil hget
    exact Lists.recorded_iff hlists hstatus h
  | amzqldb q =>
    obtain ⟨⟨reply, q₁⟩, hget, h⟩ := bind_eq_ok_iff.mp h
    obtain ⟨p, hp, h⟩ := bind_eq_ok_iff.mp h
    obtain ⟨b₁, hadd, h⟩ := bind_eq_ok_iff.mp h
    obtain rfl := Except.ok.inj h
    obtain ⟨digest, hdigest, hget⟩ := bind_eq_ok_iff.mp hget
    obtain ⟨⟨proofs, q₂⟩, hproofs, hget⟩ := bind_eq_ok_iff.mp hget
    obtain ⟨rfl, rfl⟩ := Prod.mk.inj (Except.ok.inj hget)
    have hreports := reports_qldbProofs hdigest rfl (DB.SameAnswers.refl q.db) hproofs
    obtain ⟨vs, -, hp⟩ := bind_eq_ok_iff.mp hp
    obtain rfl := Except.ok.inj hp
    rw [BufferClient.addValues, if_pos (by rfl)] at hadd
    obtain ⟨txn, hreads, hb⟩ := bind_eq_ok_iff.mp hadd
    obtain rfl := Except.ok.inj hb
    obtain ⟨hordered, hkeys⟩ := Promise.insertValues_spec StdMap.ordered_nil
      (proofs.map fun p => (p.key, p.value))
    obtain ⟨hordered', hkeys'⟩ := Promise.insertValues_spec StdMap.ordered_nil
      (Promise.insertValues [] (proofs.map fun p => (p.key, p.value)))
    have htimes : (proofs.map fun p => p.time.toNat) =
        (reports (.amzqldb q) b.buffer).map (·.timestamp) := by
      rw [hreports, List.map_map]
      rfl
    have hreads' : BufferClient.addReads (proofs.map fun p => p.time.toNat) 0
      (Promise.insertValues [] (Promise.insertValues [] (proofs.map fun p => (p.key, p.value))))
      b.txn = .ok txn := hreads
    rw [htimes] at hreads'
    apply BuildStore.recorded_iff hordered' _ hreads'
    intro k
    rw [hkeys', hkeys, hreports]
    simp [Function.comp_def]

/-- A ledger with two keys. -/
def twoKeys : Except Fault Ledgerdb.LedgerDB := do
  let (s, _) ← ({} : Ledgerdb.LedgerDB).set [str "a"] [str "x"] 1 []
  let (s, _) ← s.set [str "b"] [str "y"] 2 []
  return s

/-- A client that has buffered some keys. -/
def buffered (keys : List Bytes) : BufferClient := { buffer := keys }

theorem readSet_reported_sorted : ∃ s b', twoKeys = .ok s ∧
    (buffered [str "a", str "b"]).batchGetFrom (Hash.ofTable []) (.ledgerdb ⟨s, []⟩) = .ok b' ∧
    ∀ r ∈ reports (.ledgerdb ⟨s, []⟩) [str "a", str "b"],
      b'.txn.readSet.lookup r.key = some { timestamp := r.timestamp } := by
  have hget : (twoKeys.bind fun s => (buffered [str "a", str "b"]).batchGetFrom (Hash.ofTable [])
      (.ledgerdb ⟨s, []⟩)).toBool := by decide +kernel
  have hreports : (twoKeys.map fun s => reports (.ledgerdb ⟨s, []⟩) [str "a", str "b"]) =
      .ok [⟨str "a", 1⟩, ⟨str "b", 2⟩] := by decide +kernel
  cases hs : twoKeys with
  | error e =>
    rw [hs] at hreports
    cases hreports
  | ok s =>
    rw [hs] at hget hreports
    cases hrun : (buffered [str "a", str "b"]).batchGetFrom (Hash.ofTable []) (.ledgerdb ⟨s, []⟩) with
    | error e =>
      change ((buffered [str "a", str "b"]).batchGetFrom (Hash.ofTable [])
        (.ledgerdb ⟨s, []⟩)).toBool at hget
      rw [hrun] at hget
      cases hget
    | ok b' =>
      refine ⟨s, b', rfl, hrun, (readSet_reported_iff (.ledgerdb ⟨s, []⟩) hrun).mpr ?_⟩
      have heq : reports (.ledgerdb ⟨s, []⟩) [str "a", str "b"] = _ := Except.ok.inj hreports
      show InKeyOrder (reports (.ledgerdb ⟨s, []⟩) [str "a", str "b"])
      rw [heq]
      exact inKeyOrder_of_sorted (by decide)

/-- The second key of the request gets the timestamp of the first one. -/
theorem readSet_swapped : ∃ s b', twoKeys = .ok s ∧
    (buffered [str "b", str "a"]).batchGetFrom (Hash.ofTable []) (.ledgerdb ⟨s, []⟩) = .ok b' ∧
    reports (.ledgerdb ⟨s, []⟩) [str "b", str "a"] = [⟨str "b", 2⟩, ⟨str "a", 1⟩] ∧
    b'.txn.readSet.lookup (str "a") = some { timestamp := 2 } ∧
    b'.txn.readSet.lookup (str "b") = some { timestamp := 1 } := by
  have hget : (twoKeys.bind fun s => (buffered [str "b", str "a"]).batchGetFrom (Hash.ofTable [])
      (.ledgerdb ⟨s, []⟩)) = .ok { txn := { readSet := [(str "a", { timestamp := 2 }),
        (str "b", { timestamp := 1 })] } } := by decide +kernel
  have hreports : (twoKeys.map fun s => reports (.ledgerdb ⟨s, []⟩) [str "b", str "a"]) =
      .ok [⟨str "b", 2⟩, ⟨str "a", 1⟩] := by decide +kernel
  cases hs : twoKeys with
  | error e =>
    rw [hs] at hreports
    cases hreports
  | ok s =>
    rw [hs] at hget hreports
    exact ⟨s, _, rfl, hget, Except.ok.inj hreports, by decide, by decide⟩

end BuildStore

end LedgerDatabase.Distributed
