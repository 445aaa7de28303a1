import LedgerDatabase.Distributed.Equiv.Commit
import LedgerDatabase.Distributed.Equiv.History

/-!
# Serializability with stored procedures

`serializable`: when the servers do the reads of a transaction at its commit, every run is
equivalent to the serial execution of its committed transactions in the order of their decisions.
The writers of a key conflict with one another and with its readers, so a shard has applied them
in that order; hence the serial execution puts the same values under every key, and it has put the
same values when a transaction reads.
-/

namespace LedgerDatabase.Distributed

open ConflictOrder Run
open OCCStore (putCall)
open Transaction (Conflict)

/-! ### Serial execution -/

section

variable {a : Answers} {nshards : ℕ} {mode : Mode} {sp : Bool} {o : HashOrder}

namespace Session

/-- The writes of a session at a shard. -/
def appliedAs (o : HashOrder) (session : Session) (s : ℕ) : Applied :=
  ⟨session.client.tId, s, session.callAt o s⟩

/-- The reply to a commit at a store that holds `versions`. -/
def replyAt (a : Answers) (o : HashOrder) (session : Session) (s : ℕ) (versions : Versions) :
    TxnReply :=
  a.commitReply o (session.txnAt o s) session.ts (session.client.bclient s).history versions

variable (nshards mode sp) in
/-- **One transaction at one shard** where nothing is prepared. -/
theorem aloneAt_eq (session : Session) (s : ℕ) (versions : Versions) :
    ∃ reply, session.aloneAt (a.deployment nshards mode sp o) s { store := versions } =
        some (reply, { store := Answers.putVersions (session.callAt o s) versions }) ∧
      (sp = true → reply = session.replyAt a o s versions) := by
  have hempty : ({ store := versions } : OCCStore Versions).entry session.client.tId = none := rfl
  obtain ⟨up, hup, -, hstatus, hstore⟩ := Server.leaderUpcall_prepare
    (d := a.deployment nshards mode sp o) 0 session.client.tId
    ((session.client.bclient s).txn.serialize o) { store := versions }
  -- nothing is prepared that could conflict
  have hprepare : ({ store := versions } : OCCStore Versions).prepare session.client.tId
      (session.txnAt o s) = (.ok, ⟨versions, [(session.client.tId, session.txnAt o s)]⟩) := by
    obtain ⟨h, -⟩ | ⟨-, e, he, -⟩ := OCCStore.prepare_of_entry_none hempty (session.txnAt o s)
    · exact h
    · cases he
  rw [show Transaction.ofMessage _ = session.txnAt o s from rfl, hprepare] at hstatus hstore
  have hentry : (⟨versions, [(session.client.tId, session.txnAt o s)]⟩ :
      OCCStore Versions).entry session.client.tId = some (session.txnAt o s) := by
    simp [OCCStore.entry]
  obtain ⟨up', hup', hstore', hreply⟩ := a.leaderUpcall_commit nshards mode sp hentry o 0
    session.ts (session.client.bclient s).history
  have hstore'' : up'.store = { store := Answers.putVersions (session.callAt o s) versions } := by
    rw [hstore', OCCStore.abort]
    simp [Session.callAt]
  refine ⟨up'.reply, ?_, fun hsp => hreply hsp⟩
  rw [aloneAt, Client.prepareRequest, show (a.deployment nshards mode sp o).order = o from rfl,
    hup]
  dsimp only
  rw [if_pos hstatus, hstore, Client.commitRequest, hup']
  dsimp only
  rw [hstore'']

variable (nshards mode sp) in
/-- The loop over distinct shards where nothing is prepared. -/
theorem aloneLoop_eq (session : Session) {ps : List ℕ} (hps : ps.Nodup)
    (replies : ℕ → Option TxnReply) (versions : ℕ → Versions) :
    ∃ replies', session.aloneLoop (a.deployment nshards mode sp o) ps replies
        (fun s => { store := versions s }) =
      some (replies', fun s => { store :=
        if s ∈ ps then Answers.putVersions (session.callAt o s) (versions s) else versions s }) ∧
      (sp = true → ∀ s, replies' s =
        if s ∈ ps then some (session.replyAt a o s (versions s)) else replies s) := by
  induction ps generalizing replies versions with
  | nil => exact ⟨replies, by simp [aloneLoop], by simp⟩
  | cons p ps ih =>
    rw [List.nodup_cons] at hps
    obtain ⟨reply, halone, hreply⟩ :=
      session.aloneAt_eq (a := a) (o := o) nshards mode sp p (versions p)
    rw [aloneLoop, halone]
    dsimp only
    have hshards : Function.update (fun s => ({ store := versions s } : OCCStore Versions)) p
        { store := Answers.putVersions (session.callAt o p) (versions p) } =
        fun s => { store := (Function.update versions p
          (Answers.putVersions (session.callAt o p) (versions p)) : ℕ → Versions) s } := by
      ext1 s
      by_cases he : s = p
      · subst he
        rw [Function.update_self, Function.update_self]
      · rw [Function.update_of_ne he, Function.update_of_ne he]
    obtain ⟨replies', hloop, hreplies⟩ := ih hps.2 (Function.update replies p (some reply))
      (Function.update versions p (Answers.putVersions (session.callAt o p) (versions p)))
    rw [hshards, hloop]
    refine ⟨replies', congrArg some (Prod.ext rfl ?_), fun hsp s => ?_⟩
    · ext1 s
      by_cases he : s = p
      · subst he
        simp [hps.1]
      · simp [he]
    · rw [hreplies hsp]
      by_cases he : s = p
      · subst he
        simp [hps.1, hreply hsp]
      · simp [he]

/-- Nothing is put where a transaction takes no part. -/
theorem putVersions_callAt_of_not_mem {session : Session} (h : session.client.Wf) {s : ℕ}
    (hs : s ∉ session.client.participants) (versions : Versions) :
    Answers.putVersions (session.callAt o s) versions = versions := by
  apply Answers.putVersions_nil
  have hnil : ∀ {V : Type}, o.order ([] : UnorderedMap V) = [] := fun {V} =>
    List.perm_nil.mp (o.perm _)
  rw [callAt, putCall, txnAt, h.empty s hs, Transaction.ofMessage_serialize Transaction.keyed_empty]
  simp [hnil]

variable (nshards mode sp) in
/-- **One transaction alone** at shards where nothing is prepared. -/
theorem alone_eq {session : Session} (h : session.client.Wf) (versions : ℕ → Versions) :
    ∃ replies, session.alone (a.deployment nshards mode sp o) (fun s => { store := versions s }) =
        some (replies,
          fun s => { store := Answers.putVersions (session.callAt o s) (versions s) }) ∧
      (sp = true → ∀ s, replies s = if s ∈ session.client.participants then
        some (session.replyAt a o s (versions s)) else none) := by
  obtain ⟨replies, hloop, hreplies⟩ := session.aloneLoop_eq (a := a) (o := o) nshards mode sp
    h.nodup (fun _ => none) versions
  refine ⟨replies, ?_, hreplies⟩
  rw [alone, hloop]
  refine congrArg some (Prod.ext rfl (funext fun s => ?_))
  dsimp only
  split
  · rfl
  · rename_i hs
    rw [putVersions_callAt_of_not_mem h hs]

end Session

/-- The writes of a session on top of other writes. -/
theorem after_appliedAs (first : Versions) (session : Session) (s : ℕ) (l : List Applied) :
    after (Answers.putVersions (session.callAt o s) first) l =
      after first (session.appliedAs o s :: l) := by
  funext k
  simp [after, Answers.putVersions, Session.appliedAs]

variable (nshards mode) in
/-- **Transactions one after another**: the stores hold the writes of all of them, and each has
been answered from the writes of those before it. -/
theorem serial_eq {sessions : List Session} (h : ∀ session ∈ sessions, session.client.Wf)
    (first : ℕ → Versions) :
    ∃ replies, serial (a.deployment nshards mode true o) sessions
        (fun s => { store := first s }) =
      some (replies, fun s => { store := after (first s) (sessions.map (·.appliedAs o s)) }) ∧
      ∀ pre session post, sessions = pre ++ session :: post →
        ∃ reply, replies[pre.length]? = some reply ∧ ∀ s ∈ session.client.participants, reply s =
          some (session.replyAt a o s (after (first s) (pre.map (·.appliedAs o s)))) := by
  induction sessions generalizing first with
  | nil =>
    refine ⟨[], ?_, ?_⟩
    · simp [serial, after_nil]
    · intro pre session post hsplit
      simp at hsplit
  | cons session sessions ih =>
    obtain ⟨reply, halone, hreply⟩ := Session.alone_eq (a := a) (o := o) nshards mode true
      (h session (List.mem_cons_self ..)) first
    obtain ⟨replies, hserial, hreplies⟩ := ih
      (fun session hs => h session (List.mem_cons_of_mem _ hs))
      (fun s => Answers.putVersions (session.callAt o s) (first s))
    rw [serial, halone]
    dsimp only
    rw [hserial]
    refine ⟨_, congrArg some (Prod.ext rfl (funext fun s => ?_)), ?_⟩
    · dsimp only
      rw [after_appliedAs, List.map_cons]
    · intro pre x post hsplit
      cases pre with
      | nil =>
        obtain ⟨rfl, -⟩ := List.cons.inj hsplit
        refine ⟨reply, rfl, fun s hs => ?_⟩
        rw [hreply rfl, if_pos hs, List.map_nil, after_nil]
      | cons y pre =>
        rw [List.cons_append] at hsplit
        obtain ⟨rfl, hrest⟩ := List.cons.inj hsplit
        obtain ⟨reply', hget, hreply'⟩ := hreplies pre x post hrest
        refine ⟨reply', hget, fun s hs => ?_⟩
        rw [hreply' s hs, after_appliedAs, List.map_cons]

end

/-! ### The order of the decisions -/

namespace System

variable {a : Answers} {nshards : ℕ} {mode : Mode} {sp : Bool} {o : HashOrder}
  {stores : ℕ → Versions} {sys sys' : System Versions}

/-- A transaction writes a key at a shard. -/
def writesAt (o : HashOrder) (sys : System Versions) (s : ℕ) (k : Bytes) (id : ℕ) : Bool :=
  Decidable.decide (k ∈ (sys.txnOf o id s).writes)

/-- The writes of some transactions at a shard. -/
def writesOf (o : HashOrder) (sys : System Versions) (s : ℕ) (ids : List ℕ) : List Applied :=
  (ids.filterMap sys.sessions).map (·.appliedAs o s)

theorem versionsOf_callAt_of_not_mem {session : Session} {s : ℕ} {k : Bytes}
    (h : k ∉ (session.txnAt o s).writes) : (session.callAt o s).versionsOf k = [] := by
  have hentries : (session.callAt o s).entries = o.order (session.txnAt o s).writeSet := by
    rw [PutCall.entries, Session.callAt, putCall, ← List.unzip_fst, ← List.unzip_snd,
      List.zip_unzip]
  have hnone : ∀ e ∈ o.order (session.txnAt o s).writeSet, e.1 ≠ k := by
    rintro e he rfl
    exact h (List.mem_map_of_mem ((o.perm _).mem_iff.mp he))
  rw [PutCall.versionsOf, hentries, List.filter_eq_nil_iff.mpr (by simpa using hnone)]
  rfl

/-- **Only the writers of a key** have put versions of it. -/
theorem after_writesOf_filter (first : Versions) (s : ℕ) (k : Bytes) (ids : List ℕ) :
    after first (sys.writesOf o s (ids.filter (sys.writesAt o s k))) k =
      after first (sys.writesOf o s ids) k := by
  unfold after
  congr 1
  induction ids with
  | nil => rfl
  | cons id ids ih =>
    rw [List.filter_cons]
    cases hs : sys.sessions id with
    | none =>
      split
      · simpa [writesOf, hs] using ih
      · simpa [writesOf, hs] using ih
    | some session =>
      by_cases hw : sys.writesAt o s k id
      · rw [if_pos hw]
        simpa [writesOf, hs] using ih
      · have hnil : (session.callAt o s).versionsOf k = [] := by
          apply versionsOf_callAt_of_not_mem
          simpa [writesAt, txnOf_eq hs] using hw
        rw [if_neg hw]
        simpa [writesOf, hs, Session.appliedAs, hnil] using ih

theorem after_writesOf_congr {ids ids' : List ℕ} {s : ℕ} {k : Bytes} (first : Versions)
    (h : ids.filter (sys.writesAt o s k) = ids'.filter (sys.writesAt o s k)) :
    after first (sys.writesOf o s ids) k = after first (sys.writesOf o s ids') k := by
  rw [← after_writesOf_filter, h, after_writesOf_filter]

theorem conflictAt_of_writesAt {s x y : ℕ} {k : Bytes} (hx : sys.writesAt o s k x)
    (hy : sys.writesAt o s k y) : sys.ConflictAt o s x y :=
  ⟨k, Or.inr ⟨of_decide_eq_true hx, Or.inl (of_decide_eq_true hy)⟩⟩

theorem mem_appliedTo_of_delivered (hinv : Inv (a.deployment nshards mode sp o) sys) {id s : ℕ}
    {session : Session} (hs : sys.sessions id = some session) (hc : session.phase = .committed)
    (hdone : Delivered session) (hmem : s ∈ session.client.participants) :
    id ∈ (sys.appliedTo s).map (·.id) := by
  have happlied := ((hinv.part id session hs).2 s).applied_eq
  rw [if_pos (done_of_delivered hinv hs hc hdone hmem)] at happlied
  have hin : (⟨id, s, session.callAt o s⟩ : Applied) ∈ sys.appliedAt id s := by
    rw [happlied]
    exact List.mem_singleton_self _
  rw [appliedAt, List.mem_filter] at hin
  exact List.mem_map.mpr ⟨_, List.mem_filter.mpr ⟨hin.1, by simp⟩, rfl⟩

/-- What a shard has applied, by the numbers of the transactions. -/
theorem eq_writesOf (hinv : Inv (a.deployment nshards mode sp o) sys) {s : ℕ} {l : List Applied}
    (hl : ∀ x ∈ l, x ∈ sys.appliedTo s) : l = sys.writesOf o s (l.map (·.id)) := by
  have heq : ∀ x ∈ l, (sys.sessions x.id).map (·.appliedAs o s) = some x := by
    intro x hx
    have hmem := List.mem_filter.mp (hl x hx)
    have hin : x ∈ sys.appliedAt x.id s := by
      simpa [appliedAt] using hmem
    cases hs : sys.sessions x.id with
    | none =>
      rw [(hinv.fresh x.id hs s).2] at hin
      cases hin
    | some session =>
      obtain ⟨hid, hpart⟩ := hinv.part x.id session hs
      rw [(hpart s).applied_eq] at hin
      split at hin
      · rw [List.mem_singleton.mp hin]
        exact congrArg some (congrArg (fun id => Applied.mk id s _) hid)
      · cases hin
  have hself := List.filterMap_congr heq
  rw [List.filterMap_some] at hself
  rw [writesOf, List.map_filterMap, List.filterMap_map]
  exact hself.symm

/-- **A shard holds what the serial execution puts there.** -/
theorem store_eq_of_delivered (hinv : Inv (a.deployment nshards mode sp o) sys) (hwf : sys.Wf)
    (hist : Hist o stores sys) (hdone : ∀ id session, sys.sessions id = some session →
      session.phase = .committed → Delivered session) (s : ℕ) :
    (sys.shards s).store = after (stores s) (sys.writesOf o s sys.committed) := by
  rw [hist.store_eq, eq_writesOf hinv fun _ h => h]
  funext k
  apply after_writesOf_congr
  refine (hist.respects s).filter_eq hinv.nodup (nodup_appliedTo hinv s)
    (fun x y hx hy _ => conflictAt_of_writesAt hx hy) fun id hw => ⟨?_, ?_⟩
  · intro hid
    obtain ⟨session, hs, hc⟩ := (hinv.committed id).mp hid
    exact mem_appliedTo_of_delivered hinv hs hc (hdone id session hs hc)
      (mem_participants_of_conflict hwf hs (conflictAt_of_writesAt hw hw))
  · intro hid
    obtain ⟨x, hx, rfl⟩ := List.mem_map.mp hid
    exact committed_of_applied hinv (List.mem_filter.mp hx).1

/-- **A shard has put the same versions of a key** before it commits a transaction that reads the
key as the serial execution has. -/
theorem after_eq_of_split (hinv : Inv (a.deployment nshards mode sp o) sys) (hist : Hist o stores sys)
    {id s : ℕ} {session : Session} (hs : sys.sessions id = some session) {pre' post' : List Applied}
    {x : Applied} (hx : x.id = id) (hsplit' : sys.appliedTo s = pre' ++ x :: post')
    {pre post : List ℕ} (hsplit : sys.committed = pre ++ id :: post) {k : Bytes}
    (hk : k ∈ (session.txnAt o s).reads) :
    after (stores s) pre' k = after (stores s) (sys.writesOf o s pre) k := by
  have happlied : (sys.appliedTo s).map (·.id) = pre'.map (·.id) ++ id :: post'.map (·.id) := by
    rw [hsplit', List.map_append, List.map_cons, hx]
  have hpre : pre' = sys.writesOf o s (pre'.map (·.id)) := by
    refine eq_writesOf hinv fun y hy => ?_
    rw [hsplit']
    exact List.mem_append_left _ hy
  rw [hpre]
  apply after_writesOf_congr
  -- the writers of a key that is read conflict with one another and with the reader
  have hreads : k ∈ (sys.txnOf o id s).reads := by
    rw [txnOf_eq hs]
    exact hk
  refine (hist.respects s).filter_before_eq (fun _ _ h => h.symm) hsplit happlied hinv.nodup
    (nodup_appliedTo hinv s) ?_ (fun x y hx hy _ => conflictAt_of_writesAt hx hy)
    fun x hx _ => ⟨k, Or.inr ⟨of_decide_eq_true hx, Or.inr hreads⟩⟩
  intro x hx
  obtain ⟨y, hy, rfl⟩ := List.mem_map.mp hx
  exact committed_of_applied hinv (List.mem_filter.mp hy).1

/-- **A commit is answered as in the serial execution.** -/
theorem reply_eq_of_delivered (hinv : Inv (a.deployment nshards mode true o) sys)
    (hist : Hist o stores sys) (hreplied : Replied a o stores sys) {id s : ℕ} {session : Session}
    (hs : sys.sessions id = some session) (hd : session.done s)
    (hhistory : (session.client.bclient s).history = []) {pre post : List ℕ}
    (hsplit : sys.committed = pre ++ id :: post) :
    (session.replies s)[1]? =
      some (session.replyAt a o s (after (stores s) (sys.writesOf o s pre))) := by
  obtain ⟨pre', post', hsplit', hreply⟩ := hreplied id session s hs hd
  rw [hreply, Session.replyAt, hhistory]
  exact congrArg some (a.commitReply_congr fun k hk =>
    after_eq_of_split hinv hist hs rfl hsplit' hsplit hk)

/-! ### Serializability -/

theorem history_call {c : Client} (h : ∀ s, (c.bclient s).history = []) (nshards : ℕ) {op : Op}
    (hop : op.IsGetPut) (s : ℕ) : ((c.call nshards op).bclient s).history = [] := by
  change (Function.update c.bclient _ _ s).history = []
  by_cases he : s = Client.keyToShard op.key nshards
  · subst he
    rw [Function.update_self]
    cases op with
    | get key =>
      rw [Op.apply, BufferClient.get]
      split
      · exact h _
      · split
        · exact h _
        · exact h _
    | put key value => exact h _
    | getNVersions key n => exact hop.elim
    | bufferKey key => exact hop.elim
  · rw [Function.update_of_ne he]
    exact h s

theorem history_calls {c : Client} (h : ∀ s, (c.bclient s).history = []) (nshards : ℕ)
    {ops : List Op} (hops : ∀ op ∈ ops, op.IsGetPut) (s : ℕ) :
    ((c.calls nshards ops).bclient s).history = [] := by
  induction ops generalizing c with
  | nil => exact h s
  | cons op ops ih =>
    exact ih (history_call h nshards (hops op (List.mem_cons_self ..)))
      fun op' hop' => hops op' (List.mem_cons_of_mem _ hop')

/-- Transactions that only get and put ask for no versions. -/
theorem history_of_runs {S : Type} {d : Deployment S} {stores : ℕ → S} {labels : List Label}
    {sys : System S} (hlabels : ∀ l ∈ labels, l.StoredProcedure)
    (h : runs (step d) (init stores) labels = some sys) :
    ∀ id session, sys.sessions id = some session →
      ∀ s, (session.client.bclient s).history = [] := by
  revert hlabels
  refine runs_induction (motive := fun labels sys => (∀ l ∈ labels, l.StoredProcedure) →
    ∀ id session, sys.sessions id = some session →
      ∀ s, (session.client.bclient s).history = []) (fun _ _ _ h => by cases h) ?_ h
  intro labels l sys sys' _ ih hstep hlabels
  have hold := ih fun l hl => hlabels l (List.mem_append_left _ hl)
  have hl := hlabels l (List.mem_append_right _ (List.mem_singleton_self l))
  cases l with
  | start id ops ts =>
    obtain ⟨-, rfl⟩ := step_start_iff.mp hstep
    exact forall_setSession hold (history_calls (fun _ => rfl) d.nshards hl)
  | deliver id s time =>
    obtain ⟨session, request, up, hs, -, -, rfl⟩ := step_deliver_iff.mp hstep
    exact forall_setSession hold (hold id session hs)
  | decide id now =>
    obtain ⟨session, hs, -, -, rfl⟩ := step_decide_iff.mp hstep
    refine forall_setSession hold ?_
    rw [Session.client_decide]
    exact hold id session hs
  | startReads id keys => exact hl.elim
  | read id s => exact hl.elim
  | finishReads id compute ts => exact hl.elim

/-- **Stored procedures are serializable**: the committed transactions, executed one after another
in some order, leave the same stores and get the same replies to their commits. -/
theorem serializable (a : Answers) (nshards : ℕ) (mode : Mode) (o : HashOrder)
    (stores : ℕ → Versions) (labels : List Label) (sys : System Versions)
    (hlabels : ∀ l ∈ labels, l.StoredProcedure)
    (h : runs (step (a.deployment nshards mode true o)) (init stores) labels = some sys)
    (hdone : ∀ id session, sys.sessions id = some session → session.phase = .committed →
      Delivered session) :
    ∃ order : List ℕ, order.Nodup ∧
      (∀ id, id ∈ order ↔
        ∃ session, sys.sessions id = some session ∧ session.phase = .committed) ∧
      ∃ replies shards,
        serial (a.deployment nshards mode true o) (order.filterMap sys.sessions)
          (init stores).shards = some (replies, shards) ∧
        (∀ s, (shards s).store = (sys.shards s).store) ∧
        ∀ pre id post session, order = pre ++ id :: post → sys.sessions id = some session →
          ∃ reply, replies[pre.length]? = some reply ∧
            ∀ s ∈ session.client.participants, reply s = (session.replies s)[1]? := by
  have hinv := inv_of_runs h
  have hwf := wf_of_runs h
  have hist := hist_of_runs h
  have hall : ∀ session ∈ sys.committed.filterMap sys.sessions, session.client.Wf := by
    intro session hmem
    obtain ⟨id, -, hs⟩ := List.mem_filterMap.mp hmem
    exact hwf id session hs
  obtain ⟨replies, hserial, hreplies⟩ :=
    serial_eq (a := a) (o := o) nshards mode hall stores
  refine ⟨sys.committed, hinv.nodup, hinv.committed, replies, _, hserial, ?_, ?_⟩
  · intro s
    exact (store_eq_of_delivered hinv hwf hist hdone s).symm
  · intro pre id post session hsplit hs
    have hid : id ∈ sys.committed := by
      rw [hsplit]
      simp
    obtain ⟨session', hs', hc⟩ := (hinv.committed id).mp hid
    rw [hs] at hs'
    obtain rfl := Option.some.inj hs'
    have hlen : (pre.filterMap sys.sessions).length = pre.length := by
      rw [List.length_filterMap_eq_countP, List.countP_eq_length]
      intro x hx
      obtain ⟨sx, hsx, -⟩ := (hinv.committed x).mp (by rw [hsplit]; exact List.mem_append_left _ hx)
      rw [hsx]
      rfl
    obtain ⟨reply, hget, hreply⟩ := hreplies (pre.filterMap sys.sessions) session
      (post.filterMap sys.sessions)
      (by rw [hsplit, List.filterMap_append, List.filterMap_cons_some hs])
    rw [hlen] at hget
    refine ⟨reply, hget, fun s hmem => ?_⟩
    rw [hreply s hmem]
    have hd := done_of_delivered hinv hs hc (hdone id session hs hc) hmem
    exact (reply_eq_of_delivered hinv hist (replied_of_runs h) hs hd
      (history_of_runs hlabels h id session hs s) hsplit).symm

/-- Two transactions that read and write one key, one after the other. -/
def updateLabels : List Label :=
  [.start 1 [.get [120], .put [120] [1]] 5, .deliver 1 0 0, .decide 1 0, .deliver 1 0 0,
    .start 2 [.get [120], .put [120] [2]] 6, .deliver 2 0 0, .decide 2 0, .deliver 2 0 0]

theorem serializable_updates :
    ∃ sys, runLatest true (fun _ => []) updateLabels = some sys ∧
      ∃ order : List ℕ, order.Nodup ∧ 1 ∈ order ∧ 2 ∈ order ∧ ∃ replies shards,
        serial (Answers.latest.deployment 1 .occ true .insertion)
          (order.filterMap sys.sessions) (init fun _ _ => []).shards = some (replies, shards) ∧
        ∀ s, (shards s).store = (sys.shards s).store := by
  have h₁ : (runLatest true (fun _ => []) updateLabels).bind (progress 1 0) =
      some (.committed, [0], 2, 2) := by decide +kernel
  have h₂ : (runLatest true (fun _ => []) updateLabels).bind (progress 2 0) =
      some (.committed, [0], 2, 2) := by decide +kernel
  have hcommitted : (runLatest true (fun _ => []) updateLabels).map (·.committed) = some [1, 2] := by
    decide +kernel
  obtain ⟨sys, h, h₁⟩ := Option.bind_eq_some_iff.mp h₁
  rw [h, Option.bind_some] at h₂
  rw [h, Option.map_some, Option.some.injEq] at hcommitted
  have hinv := inv_of_runs h
  obtain ⟨s₁, hs₁, hc₁, -, hd₁⟩ := progress_singleton hinv h₁
  obtain ⟨s₂, hs₂, hc₂, -, hd₂⟩ := progress_singleton hinv h₂
  have hdone : ∀ id session, sys.sessions id = some session → session.phase = .committed →
      Delivered session := by
    intro id session hs hc
    have hid := (hinv.committed id).mpr ⟨session, hs, hc⟩
    simp only [hcommitted, List.mem_cons, List.not_mem_nil, or_false] at hid
    rcases hid with rfl | rfl
    · rw [hs₁] at hs
      obtain rfl := Option.some.inj hs
      exact hd₁
    · rw [hs₂] at hs
      obtain rfl := Option.some.inj hs
      exact hd₂
  have hlabels : ∀ l ∈ updateLabels, l.StoredProcedure := by
    simp [updateLabels, Label.StoredProcedure, Op.IsGetPut]
  obtain ⟨order, hnodup, hmem, replies, shards, hserial, hstore, -⟩ :=
    serializable _ 1 .occ .insertion (fun _ _ => []) updateLabels sys hlabels h hdone
  exact ⟨sys, h, order, hnodup, (hmem 1).mpr ⟨s₁, hs₁, hc₁⟩, (hmem 2).mpr ⟨s₂, hs₂, hc₂⟩, replies,
    shards, hserial, hstore⟩

end System

end LedgerDatabase.Distributed
