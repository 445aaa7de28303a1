import LedgerDatabase.Distributed.Equiv.Commit
import LedgerDatabase.Distributed.Equiv.UnverifiedKeys
import LedgerDatabase.Distributed.LedgerSystem

/-!
# The keys that `Commit` reports

`put` sets the entries of all written keys in one `KV`, so the answer to a commit names the last
one only, besides what the transaction has read (`commitReads_report`).
-/

namespace LedgerDatabase.Distributed

open Ledgerdb Run VersionedKVStore

/-! ### `Client::Commit` -/

namespace Client

variable {keys : UnverifiedKeys} {shard block : ℕ} {key : Bytes}

theorem has_reportReply (p : ℕ) (reply : TxnReply) :
    (reportReply p reply keys).Has shard block key ↔ keys.Has shard block key ∨
      ∃ v ∈ reply.values, shard = p ∧ block = v.estimateBlock ∧ key = v.key :=
  SortedMap.foldl_iff_or (P := fun keys : UnverifiedKeys => keys.Has shard block key)
    (R := fun v : KV => shard = p ∧ block = v.estimateBlock ∧ key = v.key)
    (fun _ v => UnverifiedKeys.has_addKey (b := v.estimateBlock) (k := v.key)) reply.values keys

/-- `Commit` reports the keys in the answers. -/
theorem has_report (replies : ℕ → TxnReply) (c : Client) :
    (c.report replies keys).Has shard block key ↔ keys.Has shard block key ∨
      shard ∈ c.participants ∧
        ∃ v ∈ (replies shard).values, block = v.estimateBlock ∧ key = v.key := by
  rw [report, SortedMap.foldl_iff_or (P := fun keys : UnverifiedKeys => keys.Has shard block key)
    fun keys p => has_reportReply p (replies p)]
  apply or_congr_right
  constructor
  · rintro ⟨p, hp, v, hv, rfl, h⟩
    exact ⟨hp, v, hv, h⟩
  · rintro ⟨hp, v, hv, h⟩
    exact ⟨shard, hp, v, hv, rfl, h⟩

end Client

/-! ### The answer to a commit -/

namespace VersionedKVStore

theorem nextBlockSeq_getValues {keys : List Bytes} {s s' : LedgerDB} {values : List LedgerDB.Found}
    (h : LedgerDB.getValues keys s = .ok (values, s')) : s'.nextBlockSeq = s.nextBlockSeq := by
  induction keys generalizing s values with
  | nil =>
    obtain ⟨-, rfl⟩ := Prod.mk.inj (Except.ok.inj h)
    rfl
  | cons key keys ih =>
    rw [LedgerDB.getValues] at h
    obtain ⟨⟨found, s₁⟩, hget, h⟩ := bind_eq_ok_iff.mp h
    obtain ⟨⟨values', s₂⟩, hrest, h⟩ := bind_eq_ok_iff.mp h
    obtain ⟨-, rfl⟩ := Prod.mk.inj (Except.ok.inj h)
    rw [ih hrest]
    rw [LedgerDB.getValue] at hget
    obtain ⟨node, -, hget⟩ := bind_eq_ok_iff.mp hget
    split at hget
    · obtain ⟨-, rfl⟩ := Prod.mk.inj (Except.ok.inj hget)
      rfl
    · obtain ⟨skipnode, -, hget⟩ := bind_eq_ok_iff.mp hget
      obtain ⟨found', -, hget⟩ := bind_eq_ok_iff.mp hget
      obtain ⟨-, rfl⟩ := Prod.mk.inj (Except.ok.inj hget)
      rfl

theorem block_set {s s' : LedgerDB} {keys values : List Bytes} {timestamp block : ℕ}
    {coins : List (List Bool)} (hkeys : keys ≠ [])
    (h : s.set keys values timestamp coins = .ok (s', block)) : block = s.nextBlockSeq := by
  rw [LedgerDB.set, if_neg (by simpa using hkeys)] at h
  obtain ⟨blkVal, -, h⟩ := bind_eq_ok_iff.mp h
  obtain ⟨⟨db, heads⟩, -, h⟩ := bind_eq_ok_iff.mp h
  exact (Prod.mk.inj (Except.ok.inj h)).2.symm

/-- What `OCCStore::Commit` reads for a transaction before it writes. -/
def reads (o : HashOrder) (txn : Transaction) (verKeys : List (Bytes × ℕ)) (s : LedgerStore) :
    Except Fault (TxnReply × LedgerStore) := do
  let digest ← getDigest s
  let (reply, s) ← OCCStore.readKeys kvStore ((o.order txn.readSet).map (·.1)) { digest } s
  OCCStore.readVersions kvStore verKeys reply s

theorem nextBlockSeq_reads {o : HashOrder} {txn : Transaction} {verKeys : List (Bytes × ℕ)}
    {s s' : LedgerStore} {reply : TxnReply} (h : reads o txn verKeys s = .ok (reply, s')) :
    s'.ldb.nextBlockSeq = s.ldb.nextBlockSeq := by
  rw [reads] at h
  obtain ⟨digest, -, h⟩ := bind_eq_ok_iff.mp h
  obtain ⟨⟨reply₁, s₁⟩, hkeys, h⟩ := bind_eq_ok_iff.mp h
  have h₁ : s₁.ldb.nextBlockSeq = s.ldb.nextBlockSeq := by
    rw [OCCStore.readKeys] at hkeys
    split at hkeys
    · change VersionedKVStore.batchGet _ _ _ = _ at hkeys
      rw [VersionedKVStore.batchGet] at hkeys
      obtain ⟨⟨values, ldb⟩, hget, hkeys⟩ := bind_eq_ok_iff.mp hkeys
      obtain ⟨-, rfl⟩ := Prod.mk.inj (Except.ok.inj hkeys)
      exact nextBlockSeq_getValues hget
    · obtain ⟨-, rfl⟩ := Prod.mk.inj (Except.ok.inj hkeys)
      rfl
  rw [← h₁]
  replace h : OCCStore.readVersions kvStore verKeys reply₁ s₁ = .ok (reply, s') := h
  rw [OCCStore.readVersions] at h
  split at h
  · change VersionedKVStore.getNVersions _ _ _ = _ at h
    rw [VersionedKVStore.getNVersions] at h
    obtain ⟨n, -, h⟩ := bind_eq_ok_iff.mp h
    obtain ⟨values, -, h⟩ := bind_eq_ok_iff.mp h
    obtain ⟨-, rfl⟩ := Prod.mk.inj (Except.ok.inj h)
    rfl
  · obtain ⟨-, rfl⟩ := Prod.mk.inj (Except.ok.inj h)
    rfl

/-- **The answer to a commit** names what was read, and the last of the written keys. -/
theorem commitReads_report {o : HashOrder} {txn : Transaction} {id timestamp : ℕ}
    {verKeys : List (Bytes × ℕ)} {s s' : OCCStore LedgerStore} {reply : TxnReply} {call : PutCall}
    (htxn : s.prepared.lookup id = some txn) {writes : List (Bytes × Bytes)}
    {last : Bytes × Bytes} (hwrites : o.order txn.writeSet = writes ++ [last])
    (h : s.commitReads o kvStore id timestamp verKeys = .ok (reply, s', call)) :
    ∃ r store, reads o txn verKeys s.store = .ok (r, store) ∧
      reply.values = r.values ++ [⟨last.1, last.2, s.store.ldb.nextBlockSeq⟩] := by
  rw [OCCStore.commitReads, htxn] at h
  obtain ⟨digest, hdigest, h⟩ := bind_eq_ok_iff.mp h
  obtain ⟨⟨r₁, s₁⟩, hkeys, h⟩ := bind_eq_ok_iff.mp h
  obtain ⟨⟨r, store⟩, hversions, h⟩ := bind_eq_ok_iff.mp h
  obtain ⟨⟨r₂, s₂⟩, hput, h⟩ := bind_eq_ok_iff.mp h
  obtain ⟨rfl, -⟩ := Prod.mk.inj (Except.ok.inj h)
  have hreads : reads o txn verKeys s.store = .ok (r, store) := by
    rw [reads]
    exact bind_eq_ok_iff.mpr ⟨digest, hdigest, bind_eq_ok_iff.mpr ⟨_, hkeys, hversions⟩⟩
  refine ⟨r, store, hreads, ?_⟩
  rw [OCCStore.putWrites, if_pos (by simp [hwrites])] at hput
  obtain ⟨⟨reply', s₃⟩, hkv, hreply⟩ := bind_eq_ok_iff.mp hput
  obtain ⟨rfl, -⟩ := Prod.mk.inj (Except.ok.inj hreply)
  change VersionedKVStore.put _ _ _ _ _ = _ at hkv
  rw [VersionedKVStore.put] at hkv
  obtain ⟨⟨ldb, block⟩, hset, hkv⟩ := bind_eq_ok_iff.mp hkv
  obtain ⟨rfl, -⟩ := Prod.mk.inj (Except.ok.inj hkv)
  have hblock := block_set (by simp [hwrites]) hset
  rw [nextBlockSeq_reads hreads] at hblock
  subst hblock
  simp only [Option.map_some, Option.getD_some, List.zip_map']
  simp only [hwrites, List.map_append, List.foldl_append, List.map_cons, List.map_nil,
    List.foldl_cons, List.foldl_nil]

end VersionedKVStore

/-! ### Runs -/

namespace Session

/-- What stays of a committed transaction. -/
structure Later (session session' : Session) : Prop where
  phase : session'.phase = .committed
  client : session'.client = session.client
  replies : ∀ p, session.replies p <+: session'.replies p

theorem Later.refl {session : Session} (h : session.phase = .committed) :
    session.Later session := ⟨h, rfl, fun _ => List.prefix_refl _⟩

theorem Later.trans {s s' s'' : Session} (h : s.Later s') (h' : s'.Later s'') : s.Later s'' :=
  ⟨h'.phase, h'.client.trans h.client, fun p => (h.replies p).trans (h'.replies p)⟩

theorem later_answer {session : Session} (h : session.phase = .committed) (s : ℕ)
    (reply : TxnReply) : session.Later (session.answer s reply) := by
  refine ⟨h, rfl, fun p => ?_⟩
  by_cases hp : p = s
  · subst hp
    rw [replies_answer]
    exact List.prefix_append _ _
  · rw [session.replies_answer_of_ne hp]

end Session

namespace System

/-- A step after the decision. -/
theorem later_step {S : Type} {d : Deployment S} {sys sys' : System S} {l : Label}
    (hstep : step d sys l = some sys') {id : ℕ} {session : Session}
    (hs : sys.sessions id = some session) (hc : session.phase = .committed) :
    ∃ session', sys'.sessions id = some session' ∧ session.Later session' := by
  -- a step of another transaction
  have hother : ∀ {id' : ℕ} {session' : Session}, id ≠ id' →
      ∃ session'', Function.update sys.sessions id' (some session') id = some session'' ∧
        session.Later session'' := fun hne =>
    ⟨session, by rw [Function.update_of_ne hne, hs], Session.Later.refl hc⟩
  -- a step of a transaction that is not committed
  have hphase : ∀ {id' : ℕ} {session' : Session}, sys.sessions id' = some session' →
      session'.phase ≠ .committed → id ≠ id' := by
    rintro id' session' hs' hne rfl
    rw [hs] at hs'
    obtain rfl := Option.some.inj hs'
    exact hne hc
  have hnew : ∀ {id' : ℕ}, sys.sessions id' = none → id ≠ id' := by
    rintro id' hnone rfl
    rw [hs] at hnone
    cases hnone
  cases l with
  | start id' ops ts =>
    obtain ⟨hnone, rfl⟩ := step_start_iff.mp hstep
    exact hother (hnew hnone)
  | startReads id' keys =>
    obtain ⟨hnone, rfl⟩ := step_startReads_iff.mp hstep
    exact hother (hnew hnone)
  | read id' s =>
    obtain ⟨session', reply, store, hs', hr, -, -, -, rfl⟩ := step_read_iff.mp hstep
    exact hother (hphase hs' (by simp [hr]))
  | finishReads id' compute ts =>
    obtain ⟨session', client, values, hs', hr, -, -, rfl⟩ := step_finishReads_iff.mp hstep
    exact hother (hphase hs' (by simp [hr]))
  | deliver id' s time =>
    obtain ⟨session', request, up, hs', -, -, rfl⟩ := step_deliver_iff.mp hstep
    by_cases he : id = id'
    · subst he
      rw [hs] at hs'
      obtain rfl := Option.some.inj hs'
      exact ⟨_, Function.update_self .., Session.later_answer hc s up.reply⟩
    · exact hother he
  | decide id' now =>
    obtain ⟨session', hs', hp, -, rfl⟩ := step_decide_iff.mp hstep
    exact hother (hphase hs' (by simp [hp]))

variable {H : Bytes → Hash} {d : Deployment LedgerStore} {sys sys' : System LedgerStore}

theorem later_ledgerStep {l : LedgerLabel} (hstep : ledgerStep H d sys l = some sys') {id : ℕ}
    {session : Session} (hs : sys.sessions id = some session) (hc : session.phase = .committed) :
    ∃ session', sys'.sessions id = some session' ∧ session.Later session' := by
  cases l with
  | system l => exact later_step hstep hs hc
  | build shard n =>
    rw [ledgerStep] at hstep
    split at hstep
    · cases hstep
    · obtain rfl := Option.some.inj hstep
      exact ⟨session, hs, Session.Later.refl hc⟩

theorem later_runs {labels : List LedgerLabel} (h : runs (ledgerStep H d) sys labels = some sys')
    {id : ℕ} {session : Session} (hs : sys.sessions id = some session)
    (hc : session.phase = .committed) :
    ∃ session', sys'.sessions id = some session' ∧ session.Later session' := by
  refine runs_inv (P := fun sys => ∃ session', sys.sessions id = some session' ∧
    session.Later session') ⟨session, hs, Session.Later.refl hc⟩ ?_ h
  rintro sys₁ l sys₂ ⟨session₁, hs₁, hlater⟩ hstep
  obtain ⟨session₂, hs₂, hlater'⟩ := later_ledgerStep hstep hs₁ hlater.phase
  exact ⟨session₂, hs₂, hlater.trans hlater'⟩

theorem inv_ledgerStep (hinv : Inv d sys ∧ sys.Wf) {l : LedgerLabel}
    (hstep : ledgerStep H d sys l = some sys') : Inv d sys' ∧ sys'.Wf := by
  cases l with
  | system l => exact ⟨inv_step hinv.1 hstep, wf_step hinv.2 hstep⟩
  | build shard n =>
    rw [ledgerStep] at hstep
    split at hstep
    · cases hstep
    · obtain rfl := Option.some.inj hstep
      exact ⟨hinv.1.setShard fun _ => rfl, hinv.2⟩

theorem inv_of_ledgerRuns {stores : ℕ → LedgerStore} {labels : List LedgerLabel}
    (h : runs (ledgerStep H d) (init stores) labels = some sys) : Inv d sys ∧ sys.Wf :=
  runs_inv ⟨inv_init d stores, fun _ _ h => nomatch h⟩ (fun _ _ _ hi hs => inv_ledgerStep hi hs) h

/-! ### What a transaction reports -/

/-- The commit of transaction `id` arrives at shard `p` in the state `sys₁` of the run. -/
def CommitArrives (H : Bytes → Hash) (d : Deployment LedgerStore) (stores : ℕ → LedgerStore)
    (labels : List LedgerLabel) (id p : ℕ) (sys₁ : System LedgerStore) : Prop :=
  ∃ pre time post, labels = pre ++ .system (.deliver id p time) :: post ∧
    runs (ledgerStep H d) (init stores) pre = some sys₁ ∧
    ∃ session, sys₁.sessions id = some session ∧ session.phase = .committed

/-- The keys that the transaction has written at shard `p` are reported under the number of the
next block of the ledger `s`. -/
def WritesReported (session : Session) (keys : UnverifiedKeys) (p : ℕ) (s : LedgerStore) : Prop :=
  ∀ e ∈ (session.client.bclient p).txn.writeSet,
    (session.report keys).Has p s.ldb.nextBlockSeq e.1

/-- Every written key but the last one, in the order of the hash table, was reported before under
the number of the next block, or is read by the transaction and found in a block of that number. -/
def OtherWritesKnown (o : HashOrder) (session : Session) (keys : UnverifiedKeys) (p : ℕ)
    (s : LedgerStore) : Prop :=
  ∀ e ∈ (o.order (session.txnAt o p).writeSet).dropLast,
    keys.Has p s.ldb.nextBlockSeq e.1 ∨
      ∃ r s', reads o (session.txnAt o p) (session.client.bclient p).history s = .ok (r, s') ∧
        ∃ v ∈ r.values, s.ldb.nextBlockSeq = v.estimateBlock ∧ e.1 = v.key

/-- The answer to a commit is what the shard makes of it in the state in which it arrives. -/
theorem commit_of_arrives {nshards : ℕ} {mode : Mode} {o : HashOrder} {stores : ℕ → LedgerStore}
    {labels : List LedgerLabel} {id p : ℕ} {session : Session} {sys₁ : System LedgerStore}
    (h : runs (ledgerStep H (ledgerDeployment nshards mode o)) (init stores) labels = some sys)
    (hs : sys.sessions id = some session)
    (harr : CommitArrives H (ledgerDeployment nshards mode o) stores labels id p sys₁) :
    p ∈ session.client.participants ∧
      ∃ ts reply s' call, (session.replies p)[1]? = some { reply with status := .ok } ∧
        (sys₁.shards p).prepared.lookup id = some (session.txnAt o p) ∧
        (sys₁.shards p).commitReads o kvStore id ts (session.client.bclient p).history =
          .ok (reply, s', call) := by
  obtain ⟨pre, time, post, rfl, hpre, session₁, hs₁, hc₁⟩ := harr
  rw [runs_append, hpre, Option.bind_some, runs, Option.bind_eq_some_iff] at h
  obtain ⟨sys₂, hstep, hpost⟩ := h
  obtain ⟨hinv, -⟩ := inv_of_ledgerRuns hpre
  obtain ⟨hid, hpart⟩ := hinv.part id session₁ hs₁
  obtain ⟨session', request, up, hs', hnext, hup, rfl⟩ := step_deliver_iff.mp hstep
  rw [hs₁] at hs'
  obtain rfl := Option.some.inj hs'
  obtain ⟨hmem, ⟨hp, -⟩ | ⟨-, ⟨r, hr, hok⟩, rfl⟩ | ⟨ha, -⟩⟩ := (hpart p).next_cases hnext
  · rw [hp] at hc₁
    cases hc₁
  · -- the client of the transaction and this answer stay
    have hs₂ : ((sys₁.setShard p up.store).setSession id (session₁.answer p up.reply)).sessions id =
        some (session₁.answer p up.reply) := Function.update_self ..
    obtain ⟨session₂, hfinal, hlater⟩ := later_runs hpost hs₂ hc₁
    rw [hs] at hfinal
    obtain rfl := Option.some.inj hfinal
    have hclient : session.client = session₁.client := hlater.client
    have hreply : (session.replies p)[1]? = some up.reply := by
      obtain ⟨rest, hrest⟩ := hlater.replies p
      rw [← hrest, Session.replies_answer, hr]
      rfl
    have hentry : (sys₁.shards p).prepared.lookup id = some (session₁.txnAt o p) := by
      have hentry := (hpart p).entry_eq
      rwa [Session.holds_singleton hr, decide_eq_true hok, if_pos rfl] at hentry
    rw [Client.commitRequest, hid, Server.leaderUpcall] at hup
    obtain ⟨⟨reply, store, call⟩, hcommit, hup⟩ := bind_eq_ok_iff.mp hup
    obtain rfl := Except.ok.inj hup
    rw [Session.txnAt, hclient]
    exact ⟨hmem, session₁.ts, reply, store, call, hreply, hentry, hcommit⟩
  · rw [ha] at hc₁
    cases hc₁

/-- **A shard reports what a transaction wrote** if and only if all keys but the last one are known
otherwise. -/
theorem writesReported_iff {nshards : ℕ} {mode : Mode} {o : HashOrder} {stores : ℕ → LedgerStore}
    {labels : List LedgerLabel} {id p : ℕ} {session : Session} {sys₁ : System LedgerStore}
    (h : runs (ledgerStep H (ledgerDeployment nshards mode o)) (init stores) labels = some sys)
    (hs : sys.sessions id = some session)
    (harr : CommitArrives H (ledgerDeployment nshards mode o) stores labels id p sys₁)
    (keys : UnverifiedKeys) :
    WritesReported session keys p (sys₁.shards p).store ↔
      OtherWritesKnown o session keys p (sys₁.shards p).store := by
  obtain ⟨hmem, ts, reply, s', call, hreply, htxn, hcommit⟩ := commit_of_arrives h hs harr
  have hkeyed := ((inv_of_ledgerRuns h).2 id session hs).keyed p
  have htxnAt : session.txnAt o p = ⟨_, o.order (session.client.bclient p).txn.writeSet⟩ :=
    Transaction.ofMessage_serialize hkeyed o
  -- the hash tables of the client and of the server have the same entries
  have hperm : (o.order (session.txnAt o p).writeSet).Perm
      (session.client.bclient p).txn.writeSet := by
    rw [htxnAt]
    exact (o.perm _).trans (o.perm _)
  have hnodup : ((o.order (session.txnAt o p).writeSet).map (·.1)).Nodup :=
    (hperm.map _).nodup_iff.mpr hkeyed.writeSet
  have hwritten : WritesReported session keys p (sys₁.shards p).store ↔
      ∀ e ∈ o.order (session.txnAt o p).writeSet,
        (session.report keys).Has p (sys₁.shards p).store.ldb.nextBlockSeq e.1 :=
    forall_congr' fun e => imp_congr_left hperm.mem_iff.symm
  rw [hwritten, OtherWritesKnown]
  rcases List.eq_nil_or_concat (o.order (session.txnAt o p).writeSet) with hnil | ⟨ws, last, hws⟩
  · simp [hnil]
  · rw [List.concat_eq_append] at hws
    obtain ⟨r, store, hreads, hvalues⟩ := commitReads_report htxn hws hcommit
    have hhas : ∀ k, (session.report keys).Has p (sys₁.shards p).store.ldb.nextBlockSeq k ↔
        keys.Has p (sys₁.shards p).store.ldb.nextBlockSeq k ∨
          (∃ v ∈ r.values, (sys₁.shards p).store.ldb.nextBlockSeq = v.estimateBlock ∧ k = v.key) ∨
            k = last.1 := by
      intro k
      rw [Session.report, Client.has_report, hreply, Option.getD_some]
      simp [hmem, hvalues, or_and_right, exists_or]
    rw [hws] at hnodup ⊢
    rw [List.dropLast_concat]
    constructor
    · intro hall e he
      rcases (hhas e.1).mp (hall e (List.mem_append_left _ he)) with hk | hk | hk
      · exact Or.inl hk
      · exact Or.inr ⟨r, store, hreads, hk⟩
      · -- the last key is another one
        rw [List.map_append, List.nodup_append] at hnodup
        exact absurd hk (hnodup.2.2 e.1 (List.mem_map_of_mem he) last.1 (by simp))
    · intro hknown e he
      rw [hhas]
      rcases List.mem_append.mp he with he | he
      · rcases hknown e he with hk | ⟨r', store', hreads', hk⟩
        · exact Or.inl hk
        · obtain ⟨rfl, -⟩ := Prod.mk.inj (Except.ok.inj (hreads.symm.trans hreads'))
          exact Or.inr (Or.inl hk)
      · rw [List.mem_singleton.mp he]
        exact Or.inr (Or.inr rfl)

/-- **Every write is reported** if and only if, wherever a transaction writes several keys, all but
the last one are known otherwise. -/
theorem writes_reported_iff (H : Bytes → Hash) (nshards : ℕ) (mode : Mode) (o : HashOrder)
    (stores : ℕ → LedgerStore) (labels : List LedgerLabel) (sys : System LedgerStore)
    (h : runs (ledgerStep H (ledgerDeployment nshards mode o)) (init stores) labels = some sys)
    (id : ℕ) (session : Session) (hs : sys.sessions id = some session) (keys : UnverifiedKeys) :
    (∀ p ∈ session.client.participants, ∃ sys₁,
        CommitArrives H (ledgerDeployment nshards mode o) stores labels id p sys₁ ∧
          WritesReported session keys p (sys₁.shards p).store) ↔
      ∀ p ∈ session.client.participants, ∃ sys₁,
        CommitArrives H (ledgerDeployment nshards mode o) stores labels id p sys₁ ∧
          OtherWritesKnown o session keys p (sys₁.shards p).store :=
  forall₂_congr fun _ _ => exists_congr fun _ => and_congr_right fun harr =>
    writesReported_iff h hs harr keys

/-- A run of one client with one shard. -/
abbrev runLedger (labels : List Label) : Option (System LedgerStore) :=
  runs (ledgerStep (Hash.ofTable []) (ledgerDeployment 1 .occ .insertion)) (init fun _ => {})
    (labels.map .system)

/-- A transaction that writes one key. -/
theorem writes_reported_one : ∃ sys session,
    runLedger [.start 1 [.put [120] [1]] 5, .deliver 1 0 0, .decide 1 0, .deliver 1 0 0] = some sys ∧
      sys.sessions 1 = some session ∧ ∀ p ∈ session.client.participants, ∃ sys₁,
        CommitArrives (Hash.ofTable []) (ledgerDeployment 1 .occ .insertion) (fun _ => {})
          (.map .system [.start 1 [.put [120] [1]] 5, .deliver 1 0 0, .decide 1 0, .deliver 1 0 0])
            1 p sys₁ ∧
          WritesReported session .empty p (sys₁.shards p).store := by
  have h : (runLedger [.start 1 [.put [120] [1]] 5, .deliver 1 0 0, .decide 1 0,
      .deliver 1 0 0]).bind (fun sys => (sys.sessions 1).map fun session =>
        (session.client.participants, (session.txnAt .insertion 0).writeSet)) =
      some ([0], [([120], [1])]) := by decide +kernel
  have h₁ : (runLedger [.start 1 [.put [120] [1]] 5, .deliver 1 0 0, .decide 1 0]).bind
      (fun sys => (sys.sessions 1).map (·.phase)) = some .committed := by decide +kernel
  obtain ⟨sys, h, hsession⟩ := Option.bind_eq_some_iff.mp h
  obtain ⟨session, hs, hsession⟩ := Option.map_eq_some_iff.mp hsession
  obtain ⟨hparticipants, hwrites⟩ := Prod.mk.inj hsession
  obtain ⟨sys₁, h₁, hsession₁⟩ := Option.bind_eq_some_iff.mp h₁
  obtain ⟨session₁, hs₁, hphase₁⟩ := Option.map_eq_some_iff.mp hsession₁
  refine ⟨sys, session, h, hs, (writes_reported_iff _ 1 .occ .insertion _ _ sys h 1 session hs
    .empty).mpr fun p hp => ?_⟩
  rw [hparticipants, List.mem_singleton] at hp
  subst hp
  refine ⟨sys₁, ⟨_, 0, [], rfl, h₁, session₁, hs₁, hphase₁⟩, fun e he => ?_⟩
  change e ∈ (session.txnAt .insertion 0).writeSet.dropLast at he
  rw [hwrites] at he
  cases he

/-- A transaction that writes two keys at one shard. -/
theorem write_unreported : ∃ sys session,
    runLedger [.start 1 [.put [120] [1], .put [121] [2]] 5, .deliver 1 0 0, .decide 1 0,
      .deliver 1 0 0] = some sys ∧
      sys.sessions 1 = some session ∧ session.phase = .committed ∧ 0 ∈ session.client.participants ∧
        (session.replies 0).length = (session.requests 0).length ∧
        ∀ s, ¬ WritesReported session .empty 0 s := by
  have h : (runLedger [.start 1 [.put [120] [1], .put [121] [2]] 5, .deliver 1 0 0, .decide 1 0,
      .deliver 1 0 0]).bind (progress 1 0) = some (.committed, [0], 2, 2) := by decide +kernel
  have h' : (runLedger [.start 1 [.put [120] [1], .put [121] [2]] 5, .deliver 1 0 0, .decide 1 0,
      .deliver 1 0 0]).bind (fun sys => (sys.sessions 1).map fun session =>
        ((session.client.bclient 0).txn.writeSet, (session.report .empty).triples)) =
      some ([([120], [1]), ([121], [2])], [(0, 0, [121])]) := by decide +kernel
  obtain ⟨sys, h, hprogress⟩ := Option.bind_eq_some_iff.mp h
  rw [h, Option.bind_some] at h'
  obtain ⟨session, hs, hsession⟩ := Option.map_eq_some_iff.mp hprogress
  rw [hs, Option.map_some, Option.some.injEq] at h'
  obtain ⟨hwrites, htriples⟩ := Prod.mk.inj h'
  simp only [Prod.mk.injEq] at hsession
  obtain ⟨hphase, hparticipants, hreplies, hrequests⟩ := hsession
  refine ⟨sys, session, h, hs, hphase, by simp [hparticipants], by rw [hreplies, hrequests],
    fun s hreported => ?_⟩
  have hkey := UnverifiedKeys.mem_triples.mpr (hreported ([120], [1]) (by simp [hwrites]))
  simp [htriples] at hkey

end System

end LedgerDatabase.Distributed
