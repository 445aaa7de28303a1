import LedgerDatabase.Common.Equiv.StdMap
import LedgerDatabase.Distributed.Equiv.Serializable
import LedgerDatabase.Distributed.Interactive

/-!
# Interactive transactions

`Prepare` does not look at what a transaction has read, so a run need not be serializable
(`lost_update`).  It is when the reads of every transaction that a shard prepares are still fresh
there (`serializable_of_fresh`): from then on the keys are held until the commit (`Reread`), and
the shard has put the same versions of them as the serial execution has.
-/

namespace LedgerDatabase.Distributed

open ConflictOrder Run
open Transaction (Conflict)

/-! ### The reads of a client -/

namespace StdMap

theorem mem_keys_assign {V : Type} {m : StdMap V} {key : Bytes} {val : V} {k : Bytes} :
    k ∈ (m.assign key val).map (·.1) ↔ k = key ∨ k ∈ m.map (·.1) := by
  induction m with
  | nil => simp [StdMap.assign]
  | cons e m ih =>
    obtain ⟨k', v'⟩ := e
    rw [StdMap.assign]
    split_ifs with h₁ h₂
    · subst h₁
      simp
    · simp
    · simp only [List.map_cons, List.mem_cons, ih]
      tauto

end StdMap

namespace BufferClient

theorem mem_reads_addReadSet {txn : Transaction} {key k : Bytes} {t : Timestamp} :
    k ∈ (txn.addReadSet key t).reads ↔ k = key ∨ k ∈ txn.reads := by
  rw [Transaction.reads, Transaction.addReadSet, UnorderedMap.keys_assign]
  split
  · rename_i hmem
    exact ⟨Or.inr, by rintro (rfl | h); exacts [hmem, h]⟩
  · rw [List.mem_append, List.mem_singleton, or_comm]
    rfl

theorem mem_reads_addReads {timestamps : List ℕ} {count : ℕ} {values : StdMap Bytes}
    {txn txn' : Transaction} (h : addReads timestamps count values txn = .ok txn') {k : Bytes} :
    k ∈ txn'.reads ↔ k ∈ values.map (·.1) ∨ k ∈ txn.reads := by
  induction values generalizing count txn with
  | nil =>
    obtain rfl := Except.ok.inj h
    simp
  | cons e values ih =>
    obtain ⟨key, value⟩ := e
    rw [addReads] at h
    obtain ⟨t, -, h⟩ := bind_eq_ok_iff.mp h
    rw [ih h, mem_reads_addReadSet, List.map_cons, List.mem_cons]
    tauto

theorem mem_keys_valuesOf {reply : TxnReply} {k : Bytes} :
    k ∈ (valuesOf reply).map (·.1) ↔ k ∈ reply.keys := by
  have hloop : ∀ (values : List KV) (m : StdMap Bytes),
      k ∈ (values.foldl (fun m v => if (m.lookup v.key).isSome then m else m.assign v.key v.val)
        m).map (·.1) ↔ k ∈ m.map (·.1) ∨ k ∈ values.map (·.key) := by
    intro values
    induction values with
    | nil => simp
    | cons v values ih =>
      intro m
      rw [List.foldl_cons, ih, List.map_cons, List.mem_cons]
      split
      · rename_i hsome
        obtain ⟨w, hw⟩ := Option.isSome_iff_exists.mp hsome
        have hmem : v.key ∈ m.map (·.1) := by
          obtain ⟨l₁, l₂, hsplit, -⟩ := List.lookup_eq_some_iff.mp hw
          rw [hsplit]
          simp
        constructor
        · rintro (h | h)
          · exact Or.inl h
          · exact Or.inr (Or.inr h)
        · rintro (h | rfl | h)
          · exact Or.inl h
          · exact Or.inl hmem
          · exact Or.inr h
      · rw [StdMap.mem_keys_assign]
        tauto
  rw [valuesOf, hloop]
  simp [TxnReply.keys]

theorem mem_reads_batchGet {b b' : BufferClient} {reply : TxnReply}
    (h : b.batchGet reply = .ok b') {k : Bytes} :
    k ∈ b'.txn.reads ↔ (reply.status = .ok ∧ k ∈ reply.keys) ∨ k ∈ b.txn.reads := by
  rw [batchGet] at h
  split at h
  · rename_i hok
    obtain ⟨txn, hadd, h⟩ := bind_eq_ok_iff.mp h
    obtain rfl := Except.ok.inj h
    rw [mem_reads_addReads hadd, mem_keys_valuesOf]
    simp [hok]
  · rename_i hok
    obtain rfl := Except.ok.inj h
    simp [hok]

end BufferClient

namespace Client

theorem participants_batchGetLoop {replies : ℕ → TxnReply} {ps : List ℕ} {c c' : Client}
    {values values' : StdMap Bytes}
    (h : batchGetLoop replies ps c values = .ok (c', values')) :
    c'.participants = c.participants := by
  induction ps generalizing c values with
  | nil =>
    obtain ⟨rfl, -⟩ := Prod.mk.inj (Except.ok.inj h)
    rfl
  | cons p ps ih =>
    rw [batchGetLoop] at h
    obtain ⟨b, -, h⟩ := bind_eq_ok_iff.mp h
    have hrest := ih h
    exact hrest

/-- `BatchGet` enters the keys of the answers in the read sets. -/
theorem mem_reads_batchGetLoop {replies : ℕ → TxnReply} {ps : List ℕ} {c c' : Client}
    {values values' : StdMap Bytes}
    (h : batchGetLoop replies ps c values = .ok (c', values')) {s : ℕ} {k : Bytes} :
    k ∈ (c'.bclient s).txn.reads ↔
      (s ∈ ps ∧ (replies s).status = .ok ∧ k ∈ (replies s).keys) ∨
        k ∈ (c.bclient s).txn.reads := by
  induction ps generalizing c values with
  | nil =>
    obtain ⟨rfl, -⟩ := Prod.mk.inj (Except.ok.inj h)
    simp
  | cons p ps ih =>
    rw [batchGetLoop] at h
    obtain ⟨b, hb, h⟩ := bind_eq_ok_iff.mp h
    rw [ih h]
    dsimp only
    by_cases he : s = p
    · subst he
      rw [Function.update_self, BufferClient.mem_reads_batchGet hb]
      simp only [List.mem_cons, true_or, true_and]
      tauto
    · rw [Function.update_of_ne he]
      simp [he]

/-- Only the answers of the participants matter. -/
theorem batchGetLoop_congr {replies replies' : ℕ → TxnReply} {ps : List ℕ} (c : Client)
    (values : StdMap Bytes) (h : ∀ p ∈ ps, replies p = replies' p) :
    batchGetLoop replies ps c values = batchGetLoop replies' ps c values := by
  induction ps generalizing c values with
  | nil => rfl
  | cons p ps ih =>
    rw [batchGetLoop, batchGetLoop, h p (List.mem_cons_self ..)]
    congr 1
    funext b
    exact ih _ _ fun q hq => h q (List.mem_cons_of_mem _ hq)

theorem mem_participants_calls (nshards : ℕ) {c : Client} (ops : List Op) {p : ℕ}
    (h : p ∈ c.participants) : p ∈ (c.calls nshards ops).participants := by
  induction ops generalizing c with
  | nil => exact h
  | cons op ops ih => exact ih ((mem_participants_call nshards c op p).mpr (Or.inl h))

/-- Puts read nothing. -/
theorem reads_calls_puts (nshards : ℕ) (c : Client) (entries : List (Bytes × Bytes)) (s : ℕ) :
    ((c.calls nshards (System.puts entries)).bclient s).txn.reads =
      (c.bclient s).txn.reads := by
  induction entries generalizing c with
  | nil => rfl
  | cons e entries ih =>
    refine (ih _).trans ?_
    change (Function.update c.bclient _ _ s).txn.reads = _
    by_cases he : s = keyToShard (Op.put e.1 e.2).key nshards
    · subst he
      rw [Function.update_self]
      rfl
    · rw [Function.update_of_ne he]

end Client

/-! ### Reading alone -/

section

variable {a : Answers} {nshards : ℕ} {mode : Mode} {sp : Bool} {o : HashOrder}

namespace Answers

/-- A reply only depends on the keys that are read. -/
theorem batchGet_congr {keys : List Bytes} {store store' : Versions}
    (h : ∀ k ∈ keys, store k = store' k) :
    a.batchGet keys {} store = a.batchGet keys {} store' := by
  have hfound : keys.filterMap (a.found store) = keys.filterMap (a.found store') :=
    List.filterMap_congr fun k hk => by rw [found, found, h k hk]
  rw [batchGet, batchGet, hfound]

/-- When every key is found, the reply has the keys that were asked for. -/
theorem keys_batchGet {keys : List Bytes} {store : Versions}
    (h : ∀ key ∈ keys, (a.get (store key)).isSome) : (a.batchGet keys {} store).keys = keys := by
  rw [TxnReply.keys, batchGet, List.nil_append, List.map_map, List.map_filterMap]
  have hkey : ∀ key ∈ keys, (a.found store key).map ((·.key) ∘ (·.1)) = some key := by
    intro key hkey
    obtain ⟨r, hr⟩ := Option.isSome_iff_exists.mp (h key hkey)
    rw [found, hr]
    rfl
  have hself := List.filterMap_congr hkey
  rw [List.filterMap_some] at hself
  exact hself

theorem occ_batchGet (keys : List Bytes) (s : OCCStore Versions) :
    s.batchGet (a.deployment nshards mode sp o).kv keys =
      .ok (a.batchGet keys {} s.store, s) := rfl

end Answers

variable (nshards mode sp) in
/-- Reading changes nothing. -/
theorem Program.readLoop_eq (client : Client) (ps : List ℕ) (replies : ℕ → Option TxnReply)
    (shards : ℕ → OCCStore Versions) :
    ∃ replies', Program.readLoop (a.deployment nshards mode sp o) client ps replies shards =
        some (replies', shards) ∧
      ∀ p, replies' p = if p ∈ ps then
        some (a.batchGet (client.bclient p).buffer {} (shards p).store) else replies p := by
  induction ps generalizing replies with
  | nil => exact ⟨replies, rfl, by simp⟩
  | cons p ps ih =>
    rw [Program.readLoop, Answers.occ_batchGet]
    dsimp only
    rw [Function.update_eq_self]
    obtain ⟨replies', hloop, hreplies⟩ := ih (Function.update replies p
      (some (a.batchGet (client.bclient p).buffer {} (shards p).store)))
    refine ⟨replies', hloop, fun q => ?_⟩
    rw [hreplies]
    by_cases he : q = p
    · subst he
      simp
    · simp [he]

/-! ### Sessions -/

/-- How a session of a run has come about: it has read the keys of its transaction, all of them
were found, and it has put what its transaction computes from them. -/
structure ReadBy (nshards : ℕ) (labels : List Label) (id : ℕ) (keys : List Bytes)
    (session : Session) : Prop where
  started : .startReads id keys ∈ labels
  replies : ∀ p reply, session.readReplies p = some reply →
    p ∈ (Program.reader nshards id keys).participants ∧ reply.status = .ok ∧
      reply.keys = ((Program.reader nshards id keys).bclient p).buffer
  reading : session.phase = .reading → session.client = Program.reader nshards id keys
  finished : session.phase ≠ .reading → ∃ compute ts client values,
    .finishReads id compute ts ∈ labels ∧
    (∀ p ∈ (Program.reader nshards id keys).participants, (session.readReplies p).isSome) ∧
    (Program.reader nshards id keys).batchGet (fun p => (session.readReplies p).getD {}) =
      .ok (client, values) ∧
    session.client = client.calls nshards (System.puts (compute values))

namespace ReadBy

variable {labels : List Label} {id : ℕ} {keys : List Bytes} {session : Session}

/-- A session that changes neither its client nor its answers. -/
theorem of_same (h : ReadBy nshards labels id keys session) (l : Label) {session' : Session}
    (hreplies : session'.readReplies = session.readReplies)
    (hclient : session'.client = session.client)
    (hphase : session'.phase = .reading ↔ session.phase = .reading) :
    ReadBy nshards (labels ++ [l]) id keys session' where
  started := List.mem_append_left _ h.started
  replies p reply hr := h.replies p reply (by rwa [← hreplies])
  reading hp := hclient.trans (h.reading (hphase.mp hp))
  finished hp := by
    obtain ⟨compute, ts, client, values, hl, hsome, hget, hc⟩ :=
      h.finished fun hr => hp (hphase.mpr hr)
    rw [hreplies]
    exact ⟨compute, ts, client, values, List.mem_append_left _ hl, hsome, hget, hclient.trans hc⟩

/-- The keys of an answer are in the read set. -/
theorem mem_reads (h : ReadBy nshards labels id keys session) (hphase : session.phase ≠ .reading)
    (hwf : session.client.Wf) {s : ℕ} {reply : TxnReply} (hr : session.readReplies s = some reply)
    {k : Bytes} (hk : k ∈ reply.keys) : k ∈ (session.txnAt o s).reads := by
  obtain ⟨compute, ts, client, values, -, -, hget, hclient⟩ := h.finished hphase
  obtain ⟨hmem, hok, -⟩ := h.replies s reply hr
  have hreads : k ∈ (session.client.bclient s).txn.reads := by
    rw [hclient, Client.reads_calls_puts, Client.mem_reads_batchGetLoop hget, hr]
    exact Or.inl ⟨hmem, hok, hk⟩
  rw [Session.txnAt, Transaction.ofMessage_serialize (hwf.keyed s)]
  exact (((o.perm _).map _).mem_iff).mpr hreads

end ReadBy

namespace System

variable {stores : ℕ → Versions} {sys sys' : System Versions} {labels : List Label}

/-- Every session reads before it commits. -/
def AllRead (nshards : ℕ) (labels : List Label) (sys : System Versions) : Prop :=
  ∀ id session, sys.sessions id = some session → ∃ keys, ReadBy nshards labels id keys session

/-- A step that changes one session. -/
theorem AllRead.of_update (h : AllRead nshards labels sys) (l : Label) {id : ℕ} {session : Session}
    (hsessions : sys'.sessions = Function.update sys.sessions id (some session))
    (hnew : ∃ keys, ReadBy nshards (labels ++ [l]) id keys session) :
    AllRead nshards (labels ++ [l]) sys' := by
  intro id' session' hs
  rw [hsessions] at hs
  by_cases he : id' = id
  · subst he
    rw [Function.update_self] at hs
    obtain rfl := Option.some.inj hs
    exact hnew
  · rw [Function.update_of_ne he] at hs
    obtain ⟨keys, hread⟩ := h id' session' hs
    exact ⟨keys, hread.of_same l rfl rfl Iff.rfl⟩

theorem allRead_step (h : AllRead nshards labels sys) {l : Label} (hl : l.Interactive)
    (hfresh : Fresh a sys l) (hstep : step (a.deployment nshards mode sp o) sys l = some sys') :
    AllRead nshards (labels ++ [l]) sys' := by
  cases l with
  | start id ops ts => exact hl.elim
  | startReads id keys =>
    obtain ⟨-, rfl⟩ := step_startReads_iff.mp hstep
    refine h.of_update _ rfl ⟨keys, ?_⟩
    constructor
    · simp
    · intro p reply hr
      cases hr
    · exact fun _ => rfl
    · exact fun hp => absurd rfl hp
  | read id s =>
    obtain ⟨session, reply, store, hs, hreading, hmem, -, hget, rfl⟩ := step_read_iff.mp hstep
    obtain ⟨keys, hread⟩ := h id session hs
    have hclient := hread.reading hreading
    refine h.of_update _ rfl ⟨keys, ?_⟩
    constructor
    · exact List.mem_append_left _ hread.started
    · intro p reply' hr
      change Function.update session.readReplies s (some reply) p = some reply' at hr
      by_cases he : p = s
      · subst he
        rw [Function.update_self] at hr
        obtain rfl := Option.some.inj hr
        rw [Answers.occ_batchGet] at hget
        obtain ⟨rfl, -⟩ := Prod.mk.inj (Except.ok.inj hget)
        rw [← hclient]
        exact ⟨hmem, rfl, Answers.keys_batchGet (hfresh session hs)⟩
      · rw [Function.update_of_ne he] at hr
        exact hread.replies p reply' hr
    · exact fun _ => hclient
    · exact fun hp => absurd hreading hp
  | finishReads id compute ts =>
    obtain ⟨session, client, values, hs, hreading, hsome, hget, rfl⟩ :=
      step_finishReads_iff.mp hstep
    obtain ⟨keys, hread⟩ := h id session hs
    have hclient := hread.reading hreading
    refine h.of_update _ rfl ⟨keys, ?_⟩
    constructor
    · exact List.mem_append_left _ hread.started
    · exact hread.replies
    · intro hp
      cases hp
    · rw [hclient] at hsome hget
      exact fun _ => ⟨compute, ts, client, values, by simp, hsome, hget, rfl⟩
  | deliver id s time =>
    obtain ⟨session, request, up, hs, -, -, rfl⟩ := step_deliver_iff.mp hstep
    obtain ⟨keys, hread⟩ := h id session hs
    exact h.of_update _ rfl ⟨keys, hread.of_same _ rfl rfl Iff.rfl⟩
  | decide id now =>
    obtain ⟨session, hs, hpreparing, -, rfl⟩ := step_decide_iff.mp hstep
    obtain ⟨keys, hread⟩ := h id session hs
    refine h.of_update _ rfl ⟨keys, hread.of_same _ (Session.readReplies_decide ..)
      (Session.client_decide ..) ?_⟩
    rw [Session.phase_decide, hpreparing]
    split <;> simp

/-! ### Reading again -/

/-- A shard that holds a transaction would answer its reads again as it has answered them, and one
that has committed it had put nothing else before that. -/
def Reread (a : Answers) (o : HashOrder) (stores : ℕ → Versions) (sys : System Versions) : Prop :=
  ∀ id session s reply, sys.sessions id = some session → session.readReplies s = some reply →
    (session.holds s → a.batchGet reply.keys {} (sys.shards s).store = reply) ∧
    (session.done s → ∃ pre post,
      sys.appliedTo s = pre ++ ⟨id, s, session.callAt o s⟩ :: post ∧
        a.batchGet reply.keys {} (after (stores s) pre) = reply)

/-- A session that no shard holds or has committed. -/
theorem not_holds_of_replies_nil {session : Session} {s : ℕ} (h : session.replies s = []) :
    ¬ session.holds s ∧ ¬ session.done s := by
  constructor
  · rw [Session.holds_of_length_ne_one (by simp [h])]
    exact Bool.false_ne_true
  · rw [Session.done_iff]
    simp [h]

/-- A step that changes one session and leaves the stores. -/
theorem Reread.of_update (h : Reread a o stores sys) {id : ℕ} {session : Session}
    (hsessions : sys'.sessions = Function.update sys.sessions id (some session))
    (hstore : ∀ s, (sys'.shards s).store = (sys.shards s).store)
    (happlied : sys'.applied = sys.applied)
    (hnew : ∀ s reply, session.readReplies s = some reply →
      (session.holds s → a.batchGet reply.keys {} (sys.shards s).store = reply) ∧
        ¬ session.done s) : Reread a o stores sys' := by
  intro id' session' s reply hs hr
  have happliedTo : sys'.appliedTo s = sys.appliedTo s := by
    rw [appliedTo, happlied, appliedTo]
  rw [hsessions] at hs
  rw [hstore, happliedTo]
  by_cases he : id' = id
  · subst he
    rw [Function.update_self] at hs
    obtain rfl := Option.some.inj hs
    exact (hnew s reply hr).imp_right fun hd hdone => absurd hdone hd
  · rw [Function.update_of_ne he] at hs
    exact h id' session' s reply hs hr

/-- The puts of a commit leave the versions of a key that it does not write. -/
theorem putVersions_of_not_mem {session : Session} {s : ℕ} {k : Bytes}
    (h : k ∉ (session.txnAt o s).writes) (versions : Versions) :
    Answers.putVersions (session.callAt o s) versions k = versions k := by
  rw [Answers.putVersions, versionsOf_callAt_of_not_mem h, List.append_nil]

theorem reread_step (h : Reread a o stores sys) (hist : Hist o stores sys)
    (hinv : Inv (a.deployment nshards mode sp o) sys) (hwf : sys.Wf)
    (hall : AllRead nshards labels sys) {l : Label} (hl : l.Interactive) (hfresh : Fresh a sys l)
    (hstep : step (a.deployment nshards mode sp o) sys l = some sys') : Reread a o stores sys' := by
  cases l with
  | start id ops ts => exact hl.elim
  | startReads id keys =>
    obtain ⟨-, rfl⟩ := step_startReads_iff.mp hstep
    exact h.of_update rfl (fun _ => rfl) rfl fun s reply hr => by cases hr
  | read id s =>
    obtain ⟨session, reply, store, hs, hreading, -, -, hget, rfl⟩ := step_read_iff.mp hstep
    rw [Answers.occ_batchGet] at hget
    obtain ⟨-, rfl⟩ := Prod.mk.inj (Except.ok.inj hget)
    have hnil : ∀ s', session.replies s' = [] := by
      intro s'
      have hle := ((hinv.part id session hs).2 s').length_le
      rw [Session.sent, hreading] at hle
      simpa using hle
    refine h.of_update rfl (fun s' => ?_) rfl fun s' reply' _ => ?_
    · change (Function.update sys.shards s (sys.shards s) s').store = _
      rw [Function.update_eq_self]
    · have hnot := @not_holds_of_replies_nil (session.readAnswer s reply) s' (hnil s')
      exact hnot.imp_left fun hh hholds => absurd hholds hh
  | finishReads id compute ts =>
    obtain ⟨session, client, values, hs, hreading, -, -, rfl⟩ := step_finishReads_iff.mp hstep
    have hnil : ∀ s', session.replies s' = [] := by
      intro s'
      have hle := ((hinv.part id session hs).2 s').length_le
      rw [Session.sent, hreading] at hle
      simpa using hle
    refine h.of_update rfl (fun s' => rfl) rfl fun s' reply' _ => ?_
    have hnot := @not_holds_of_replies_nil (Session.prepare o
      { session with client := client.calls nshards (puts (compute values)) } ts) s' (hnil s')
    exact hnot.imp_left fun hh hholds => absurd hholds hh
  | decide id now =>
    obtain ⟨session, hs, hpreparing, -, rfl⟩ := step_decide_iff.mp hstep
    refine h.of_update rfl (fun s' => rfl) rfl fun s' reply hr => ?_
    rw [Session.readReplies_decide] at hr
    have hlen := ((hinv.part id session hs).2 s').length_replies hpreparing
    constructor
    · intro hholds
      refine (h id session s' reply hs hr).1 ?_
      rwa [Session.holds, Session.replies_decide] at hholds
    · rw [Session.done_iff, Session.replies_decide]
      omega
  | deliver id s time =>
    obtain ⟨session, hs, -, hcase, -⟩ := deliver_cases hinv hstep
    obtain ⟨-, hentry, ⟨r, reply, hr, hsessions, -⟩, hstore, hothers, happlied⟩ |
      ⟨hphase, ⟨reply, hsessions⟩, hstore, happlied⟩ := hcase
    · have happliedTo : ∀ s', sys'.appliedTo s' = sys.appliedTo s' ++
          if s = s' then [⟨id, s, session.callAt o s⟩] else [] := by
        intro s'
        rw [appliedTo, happlied, appliedTo_concat]
        rfl
      -- an earlier commit stays where it is
      have hold : ∀ id' session' s' reply', sys.sessions id' = some session' →
          session'.readReplies s' = some reply' → session'.done s' → ∃ pre post,
            sys'.appliedTo s' = pre ++ ⟨id', s', session'.callAt o s'⟩ :: post ∧
              a.batchGet reply'.keys {} (after (stores s') pre) = reply' := by
        intro id' session' s' reply' hs' hr' hd
        obtain ⟨pre, post, hsplit, hget⟩ := (h id' session' s' reply' hs' hr').2 hd
        refine ⟨pre, post ++ if s = s' then [⟨id, s, session.callAt o s⟩] else [], ?_, hget⟩
        rw [happliedTo, hsplit, List.append_assoc, List.cons_append]
      have hholds : session.holds s := by
        by_contra hnot
        have heq := ((hinv.part id session hs).2 s).entry_eq
        rw [hentry, if_neg hnot] at heq
        cases heq
      intro id' session' s' reply' hs' hr'
      rw [hsessions] at hs'
      by_cases he : id' = id
      · subst he
        rw [Function.update_self] at hs'
        obtain rfl := Option.some.inj hs'
        by_cases hss : s' = s
        · subst hss
          have hreplies := session.replies_answer s' reply
          rw [hr] at hreplies
          constructor
          · rw [Session.holds_of_length_ne_one (by simp [hreplies])]
            exact fun hf => absurd hf Bool.false_ne_true
          · refine fun _ => ⟨sys.appliedTo s', [], ?_, ?_⟩
            · rw [happliedTo, if_pos rfl]
              rfl
            · rw [← hist.store_eq]
              exact (h id' session s' reply' hs hr').1 hholds
        · have hreplies := session.replies_answer_of_ne hss reply
          rw [hothers s' hss]
          constructor
          · intro hh
            refine (h id' session s' reply' hs hr').1 ?_
            rwa [Session.holds, hreplies] at hh
          · intro hd
            refine hold id' session s' reply' hs hr' ?_
            rw [Session.done_iff] at hd ⊢
            rwa [hreplies, Session.phase_answer] at hd
      · rw [Function.update_of_ne he] at hs'
        refine ⟨fun hh => ?_, hold id' session' s' reply' hs' hr'⟩
        have hget := (h id' session' s' reply' hs' hr').1 hh
        by_cases hss : s' = s
        · subst hss
          rw [hstore]
          refine (Answers.batchGet_congr fun k hk => ?_).trans hget
          -- the shard holds the reader, so the commit does not write its keys
          apply putVersions_of_not_mem
          intro hw
          obtain ⟨keys, hread⟩ := hall id' session' hs'
          have hpart := (hinv.part id' session' hs').2 s'
          have hentry' := hpart.entry_eq
          rw [if_pos hh] at hentry'
          have hphase' : session'.phase ≠ .reading := by
            intro hreading
            have hle := hpart.length_le
            rw [Session.sent, hreading] at hle
            have hnil : session'.replies s' = [] := by simpa using hle
            exact (not_holds_of_replies_nil hnil).1 hh
          have hreads := hread.mem_reads (o := o) hphase' (hwf id' session' hs') hr' hk
          exact hinv.conflictFree s' id' id _ _ hentry' hentry he
            ⟨k, Or.inl ⟨hreads, hw⟩⟩
        · rw [hothers s' hss]
          exact hget
    · refine h.of_update hsessions hstore happlied fun s' reply' hr' =>
        ⟨fun hh => ?_, by simp [Session.done, hphase]⟩
      by_cases hss : s' = s
      · subst hss
        have hreplies := session.replies_answer s' reply
        have hnil : session.replies s' = [] := by
          by_contra hne
          have hlen : ((session.answer s' reply).replies s').length ≠ 1 := by
            rw [hreplies, List.length_append, List.length_singleton]
            have := List.length_pos_iff.mpr hne
            omega
          rw [Session.holds_of_length_ne_one hlen] at hh
          cases hh
        rw [hnil, List.nil_append] at hreplies
        -- the answer is that to `Prepare`
        obtain ⟨session', request, up, hs', hnext, hup, hsys⟩ := step_deliver_iff.mp hstep
        rw [hs] at hs'
        obtain rfl := Option.some.inj hs'
        have hup' : up.reply = reply := by
          have heq := congrFun hsessions id
          rw [hsys, Function.update_self] at heq
          change Function.update sys.sessions id _ id = _ at heq
          rw [Function.update_self] at heq
          have hlast := congrArg (fun x => x.replies s') (Option.some.inj heq)
          rw [session.replies_answer, session.replies_answer, hnil] at hlast
          simpa using hlast
        rw [Session.holds_singleton hreplies, decide_eq_true_eq] at hh
        obtain ⟨-, ⟨-, -, hrequest⟩ | ⟨-, ⟨r, hr, -⟩, -⟩ | ⟨-, ⟨r, hr⟩, -⟩⟩ :=
          ((hinv.part id session hs).2 s').next_cases hnext
        · obtain ⟨up', hup'', -, hstatus, -⟩ := Server.leaderUpcall_prepare
            (d := a.deployment nshards mode sp o) time session.client.tId
            ((session.client.bclient s').txn.serialize o) (sys.shards s')
          rw [hrequest] at hup
          have heq : up = up' := Except.ok.inj (hup.symm.trans hup'')
          rw [← heq, hup'] at hstatus
          rw [hrequest] at hnext
          exact hfresh session hs _ hnext (decide_eq_true (hstatus.symm.trans hh)) reply' hr'
        · rw [hnil] at hr
          cases hr
        · rw [hnil] at hr
          cases hr
      · have hreplies := session.replies_answer_of_ne hss reply
        refine (h id session s' reply' hs hr').1 ?_
        rwa [Session.holds, hreplies] at hh

/-! ### Fresh runs -/

theorem reads_of_runs (hlabels : ∀ l ∈ labels, l.Interactive)
    (hfresh : Along (step (a.deployment nshards mode sp o)) (Fresh a) (init stores) labels)
    (h : runs (step (a.deployment nshards mode sp o)) (init stores) labels = some sys) :
    AllRead nshards labels sys ∧ Reread a o stores sys := by
  revert hlabels
  refine runs_induction_along (motive := fun labels sys => (∀ l ∈ labels, l.Interactive) →
    AllRead nshards labels sys ∧ Reread a o stores sys) ?_ ?_ hfresh h
  · intro _
    exact ⟨fun _ _ hs => (by cases hs), fun _ _ _ _ hs => (by cases hs)⟩
  · intro labels l sys sys' hrun ih hnow hstep hlabels
    obtain ⟨hall, hreread⟩ := ih fun l' hl' => hlabels l' (List.mem_append_left _ hl')
    have hl : l.Interactive := hlabels l (by simp)
    exact ⟨allRead_step hall hl hnow hstep, reread_step hreread (hist_of_runs hrun)
      (inv_of_runs hrun) (wf_of_runs hrun) hall hl hnow hstep⟩

/-! ### Serial execution -/

theorem writesOf_concat {id s : ℕ} {session : Session} (hs : sys.sessions id = some session)
    (ids : List ℕ) :
    sys.writesOf o s (ids ++ [id]) = sys.writesOf o s ids ++ [session.appliedAs o s] := by
  simp [writesOf, hs]

variable (mode sp) in
/-- **A program alone** at stores where it reads what its session has read puts what its session
puts. -/
theorem program_alone {id : ℕ} {keys : List Bytes} {session : Session}
    (hread : ReadBy nshards labels id keys session) (hphase : session.phase ≠ .reading)
    (hwf : session.client.Wf) : ∃ compute ts, .finishReads id compute ts ∈ labels ∧
      ∀ versions : ℕ → Versions, (∀ s reply, session.readReplies s = some reply →
          a.batchGet reply.keys {} (versions s) = reply) →
        (Program.mk id keys compute session.ts).alone (a.deployment nshards mode sp o)
            (fun s => { store := versions s }) =
          some fun s => { store := Answers.putVersions (session.callAt o s) (versions s) } := by
  obtain ⟨compute, ts, client, values, hl, hsome, hget, hclient⟩ := hread.finished hphase
  refine ⟨compute, ts, hl, fun versions hreread => ?_⟩
  obtain ⟨replies, hloop, hreplies⟩ := Program.readLoop_eq (a := a) (o := o) nshards mode sp
    (Program.reader nshards id keys)
    (Program.reader nshards id keys).participants (fun _ => none)
    (fun s => { store := versions s })
  -- the answers are those that the session has got
  have hsame : ∀ p ∈ (Program.reader nshards id keys).participants,
      (replies p).getD {} = (session.readReplies p).getD {} := by
    intro p hp
    obtain ⟨reply, hr⟩ := Option.isSome_iff_exists.mp (hsome p hp)
    rw [hreplies, if_pos hp, hr, ← (hread.replies p reply hr).2.2]
    exact hreread p reply hr
  have hbatch : (Program.reader nshards id keys).batchGet (fun p => (replies p).getD {}) =
      .ok (client, values) :=
    (Client.batchGetLoop_congr _ _ hsame).trans hget
  have hcall : ∀ s, Session.callAt o { client := session.client, phase := .preparing
                                       ts := session.ts } s = session.callAt o s := fun _ => rfl
  obtain ⟨replies', halone, -⟩ := Session.alone_eq (a := a) (o := o) nshards mode sp
    (show ({ client := session.client, phase := .preparing, ts := session.ts } :
      Session).client.Wf from hwf) versions
  rw [Program.alone]
  dsimp only
  rw [show (a.deployment nshards mode sp o).nshards = nshards from rfl, hloop]
  dsimp only
  rw [hbatch]
  dsimp only
  rw [← hclient, halone]
  simp only [hcall, Option.map_some]

/-- Programs one after another, from what each does at the stores that it finds. -/
theorem serialPrograms_eq {d : Deployment Versions} (program : ℕ → Program)
    (versions : List ℕ → ℕ → Versions) (pre : List ℕ) {ids : List ℕ}
    (h : ∀ pre' id post, ids = pre' ++ id :: post →
      (program id).alone d (fun s => { store := versions (pre ++ pre') s }) =
        some fun s => { store := versions (pre ++ pre' ++ [id]) s }) :
    serialPrograms d (ids.map program) (fun s => { store := versions pre s }) =
      some fun s => { store := versions (pre ++ ids) s } := by
  induction ids generalizing pre with
  | nil => simp [serialPrograms]
  | cons id ids ih =>
    have hfirst := h [] id ids rfl
    rw [List.append_nil] at hfirst
    rw [List.map_cons, serialPrograms, hfirst]
    dsimp only
    rw [ih (pre ++ [id]) ?_, List.append_assoc, List.singleton_append]
    rintro pre' id' post rfl
    have hnext := h (id :: pre') id' post rfl
    rwa [List.append_cons pre id pre'] at hnext

/-- **Interactive transactions are serializable when their reads are fresh**: when every key that
they read is there, and when a shard that accepts a `Prepare` would answer the reads of the
transaction as it has answered them. -/
theorem serializable_of_fresh (a : Answers) (nshards : ℕ) (mode : Mode) (o : HashOrder)
    (stores : ℕ → Versions) (labels : List Label) (sys : System Versions)
    (hlabels : ∀ l ∈ labels, l.Interactive)
    (h : runs (step (a.deployment nshards mode false o)) (init stores) labels = some sys)
    (hdone : ∀ id session, sys.sessions id = some session → session.phase = .committed →
      Delivered session)
    (hfresh : Along (step (a.deployment nshards mode false o)) (Fresh a) (init stores) labels) :
    SerializableTo (a.deployment nshards mode false o) stores labels sys := by
  have hinv := inv_of_runs h
  have hwf := wf_of_runs h
  have hist := hist_of_runs h
  obtain ⟨hall, hreread⟩ := reads_of_runs hlabels hfresh h
  -- every committed transaction has a program
  have hprogram : ∀ id, ∃ program : Program, program.id = id ∧ ∀ session,
      sys.sessions id = some session → session.phase = .committed →
        .startReads id program.keys ∈ labels ∧
        (∃ ts, .finishReads id program.compute ts ∈ labels) ∧
        ∀ versions : ℕ → Versions, (∀ s reply, session.readReplies s = some reply →
            a.batchGet reply.keys {} (versions s) = reply) →
          program.alone (a.deployment nshards mode false o) (fun s => { store := versions s }) =
            some fun s => { store := Answers.putVersions (session.callAt o s) (versions s) } := by
    intro id
    cases hs : sys.sessions id with
    | none => exact ⟨⟨id, [], fun _ => [], 0⟩, rfl, fun _ hs => by cases hs⟩
    | some session =>
      by_cases hc : session.phase = .committed
      · obtain ⟨keys, hread⟩ := hall id session hs
        obtain ⟨compute, ts, hl, halone⟩ := program_alone (a := a) (o := o) mode false hread (by rw [hc]; simp) (hwf id session hs)
        refine ⟨⟨id, keys, compute, session.ts⟩, rfl, fun session' hs' _ => ?_⟩
        obtain rfl := Option.some.inj hs'
        exact ⟨hread.started, ⟨ts, hl⟩, halone⟩
      · refine ⟨⟨id, [], fun _ => [], 0⟩, rfl, fun session' hs' hc' => ?_⟩
        obtain rfl := Option.some.inj hs'
        exact absurd hc' hc
  choose program hid hprogram using hprogram
  have hids : (sys.committed.map program).map (·.id) = sys.committed := by
    rw [List.map_map]
    refine (List.map_congr_left fun id _ => ?_).trans (List.map_id _)
    exact hid id
  refine ⟨sys.committed.map program, ?_, ?_, ?_,
    fun s => { store := after (stores s) (sys.writesOf o s sys.committed) }, ?_, ?_⟩
  · rw [hids]
    exact hinv.nodup
  · rw [hids]
    exact hinv.committed
  · intro p hp
    obtain ⟨id, hmem, rfl⟩ := List.mem_map.mp hp
    obtain ⟨session, hs, hc⟩ := (hinv.committed id).mp hmem
    obtain ⟨hstart, hfinish, -⟩ := hprogram id session hs hc
    rw [hid]
    exact ⟨hstart, hfinish⟩
  · have hserial := @serialPrograms_eq (a.deployment nshards mode false o) program
      (fun ids s => after (stores s) (sys.writesOf o s ids)) [] sys.committed ?_
    · simpa [writesOf, after_nil, init] using hserial
    intro pre id post hsplit
    obtain ⟨session, hs, hc⟩ := (hinv.committed id).mp (by rw [hsplit]; simp)
    have halone := (hprogram id session hs hc).2.2
      (fun s => after (stores s) (sys.writesOf o s pre)) ?_
    · rw [List.nil_append, halone]
      refine congrArg some (funext fun s => ?_)
      rw [writesOf_concat hs, after_concat]
      rfl
    -- the shard has put the same versions before it committed the transaction
    intro s reply hr
    obtain ⟨keys, hread⟩ := hall id session hs
    have hphase : session.phase ≠ .reading := by
      rw [hc]
      simp
    have hmem : s ∈ session.client.participants := by
      obtain ⟨compute, ts, client, values, -, -, hget, hclient⟩ := hread.finished hphase
      rw [hclient]
      apply Client.mem_participants_calls
      rw [Client.participants_batchGetLoop hget]
      exact (hread.replies s reply hr).1
    have hd := done_of_delivered hinv hs hc (hdone id session hs hc) hmem
    obtain ⟨pre', post', hsplit', hget⟩ := (hreread id session s reply hs hr).2 hd
    refine (Answers.batchGet_congr fun k hk => ?_).trans hget
    exact (after_eq_of_split hinv hist hs rfl hsplit' hsplit
      (hread.mem_reads hphase (hwf id session hs) hr hk)).symm
  · intro s
    exact (store_eq_of_delivered hinv hwf hist hdone s).symm

/-- A client that adds one to the counter under a key. -/
def increment (values : StdMap Bytes) : List (Bytes × Bytes) :=
  [([120], [((values.lookup [120]).getD []).headD 0 + 1])]

/-- A shard with a counter that is zero. -/
def zero : Versions := fun k => if k = [120] then [(0, [0])] else []

/-- One client after the other. -/
def incrementLabels : List Label :=
  [.startReads 1 [[120]], .read 1 0, .finishReads 1 increment 5, .deliver 1 0 0, .decide 1 0,
    .deliver 1 0 0, .startReads 2 [[120]], .read 2 0, .finishReads 2 increment 6, .deliver 2 0 0,
    .decide 2 0, .deliver 2 0 0]

theorem serializable_of_fresh_increments :
    ∃ sys, runLatest false zero incrementLabels = some sys ∧
      SerializableTo (Answers.latest.deployment 1 .occ false .insertion) (fun _ => zero)
        incrementLabels sys := by
  have h₁ : (runLatest false zero incrementLabels).bind (progress 1 0) =
      some (.committed, [0], 2, 2) := by decide +kernel
  have h₂ : (runLatest false zero incrementLabels).bind (progress 2 0) =
      some (.committed, [0], 2, 2) := by decide +kernel
  have hcommitted : (runLatest false zero incrementLabels).map (·.committed) = some [1, 2] := by
    decide +kernel
  have hfresh : Along (step (Answers.latest.deployment 1 .occ false .insertion))
      (Fresh Answers.latest) (init fun _ => zero) incrementLabels := by decide +kernel
  obtain ⟨sys, h, h₁⟩ := Option.bind_eq_some_iff.mp h₁
  rw [h, Option.bind_some] at h₂
  rw [h, Option.map_some, Option.some.injEq] at hcommitted
  have hinv := inv_of_runs h
  obtain ⟨s₁, hs₁, -, -, hd₁⟩ := progress_singleton hinv h₁
  obtain ⟨s₂, hs₂, -, -, hd₂⟩ := progress_singleton hinv h₂
  have hdone : ∀ id session, sys.sessions id = some session → session.phase = .committed →
      Delivered session := by
    intro id session hs hc
    have hid := (hinv.committed id).mpr ⟨session, hs, hc⟩
    simp only [hcommitted, List.mem_cons, List.not_mem_nil, or_false] at hid
    rcases hid with rfl | rfl
    · rw [hs₁] at hs
      obtain rfl := Option.some.inj hs
      exact hd₁
    · rw [hs₂] at hs
      obtain rfl := Option.some.inj hs
      exact hd₂
  have hlabels : ∀ l ∈ incrementLabels, l.Interactive := by
    simp [incrementLabels, Label.Interactive]
  exact ⟨sys, h, serializable_of_fresh _ 1 .occ .insertion _ incrementLabels sys hlabels h hdone
    hfresh⟩

/-! ### A lost update -/

/-- Both clients read before either commits. -/
def lostLabels : List Label :=
  [.startReads 1 [[120]], .startReads 2 [[120]], .read 1 0, .read 2 0,
    .finishReads 1 increment 5, .deliver 1 0 0, .decide 1 0, .deliver 1 0 0,
    .finishReads 2 increment 6, .deliver 2 0 0, .decide 2 0, .deliver 2 0 0]

theorem call_one (c : Client) (op : Op) : c.call 1 op =
    { c with
      participants := if 0 ∈ c.participants then c.participants
        else c.participants.orderedInsert (· ≤ ·) 0
      bclient := Function.update c.bclient 0 (op.apply (c.bclient 0)) } := by
  simp only [Client.call, Client.keyToShard, Nat.mod_one]

/-- In a serial execution the counter is two, at whatever times the transactions commit. -/
theorem serialPrograms_increment (t t' : ℕ) :
    (serialPrograms (Answers.latest.deployment 1 .occ false .insertion)
        [⟨1, [[120]], increment, t⟩, ⟨2, [[120]], increment, t'⟩]
        (init fun _ => zero).shards).map (fun shards => (shards 0).store [120]) =
      some [(0, [0]), (t, [1]), (t', [2])] ∧
    (serialPrograms (Answers.latest.deployment 1 .occ false .insertion)
        [⟨2, [[120]], increment, t⟩, ⟨1, [[120]], increment, t'⟩]
        (init fun _ => zero).shards).map (fun shards => (shards 0).store [120]) =
      some [(0, [0]), (t, [1]), (t', [2])] := by
  simp only [serialPrograms, Program.alone, Program.reader, increment, puts, List.map, Client.calls,
    List.foldl, show (Answers.latest.deployment 1 .occ false .insertion).nshards = 1 from rfl,
    call_one]
  exact ⟨rfl, rfl⟩

theorem lost_update :
    ¬ ∀ (a : Answers) (nshards : ℕ) (mode : Mode) (o : HashOrder) (stores : ℕ → Versions)
        (labels : List Label) (sys : System Versions), (∀ l ∈ labels, l.Interactive) →
      runs (step (a.deployment nshards mode false o)) (init stores) labels = some sys →
      (∀ id keys, .startReads id keys ∈ labels → ∃ session, sys.sessions id = some session ∧
        session.phase = .committed ∧ Delivered session) →
      SerializableTo (a.deployment nshards mode false o) stores labels sys := by
  intro hclaim
  have h₁ : (runLatest false zero lostLabels).bind (progress 1 0) =
      some (.committed, [0], 2, 2) := by decide +kernel
  have h₂ : (runLatest false zero lostLabels).bind (progress 2 0) =
      some (.committed, [0], 2, 2) := by decide +kernel
  have hcommitted : (runLatest false zero lostLabels).map (·.committed) = some [1, 2] := by
    decide +kernel
  have hfinal : (runLatest false zero lostLabels).map (fun sys => (sys.shards 0).store [120]) =
      some [(0, [0]), (5, [1]), (6, [1])] := by decide +kernel
  obtain ⟨sys, h, h₁⟩ := Option.bind_eq_some_iff.mp h₁
  rw [h, Option.bind_some] at h₂
  rw [h, Option.map_some, Option.some.injEq] at hcommitted hfinal
  have hinv := inv_of_runs h
  obtain ⟨s₁, hs₁, hc₁, -, hd₁⟩ := progress_singleton hinv h₁
  obtain ⟨s₂, hs₂, hc₂, -, hd₂⟩ := progress_singleton hinv h₂
  obtain ⟨programs, hnodup, hids, hlabels, shards, hserial, hstore⟩ :=
    hclaim .latest 1 .occ .insertion (fun _ => zero) lostLabels sys
      (by simp [lostLabels, Label.Interactive]) h (by
        intro id keys hl
        simp only [lostLabels, List.mem_cons, List.not_mem_nil, or_false, reduceCtorEq,
          Label.startReads.injEq] at hl
        rcases hl with ⟨rfl, -⟩ | ⟨rfl, -⟩
        · exact ⟨s₁, hs₁, hc₁, hd₁⟩
        · exact ⟨s₂, hs₂, hc₂, hd₂⟩)
  -- the two programs, in one of two orders
  have hperm : (programs.map (·.id)).Perm [1, 2] := by
    refine (List.perm_ext_iff_of_nodup hnodup (by decide)).mpr fun id => ?_
    rw [hids, ← hinv.committed, hcommitted]
  have hprogram : ∀ p ∈ programs, p = ⟨p.id, [[120]], increment, p.ts⟩ := by
    intro p hp
    obtain ⟨hstart, ts, hfinish⟩ := hlabels p hp
    obtain ⟨id, keys, compute, t⟩ := p
    simp only [lostLabels, List.mem_cons, List.not_mem_nil, or_false, reduceCtorEq, false_or,
      Label.startReads.injEq, Label.finishReads.injEq] at hstart hfinish
    rcases hstart with ⟨-, rfl⟩ | ⟨-, rfl⟩ <;> rcases hfinish with ⟨-, rfl, -⟩ | ⟨-, rfl, -⟩ <;> rfl
  have hlast : (serialPrograms (Answers.latest.deployment 1 .occ false .insertion) programs
      (init fun _ => zero).shards).map (fun shards => (shards 0).store [120]) =
        some [(0, [0]), (5, [1]), (6, [1])] := by
    rw [hserial, Option.map_some, hstore, hfinal]
  obtain ⟨p, q, rfl⟩ := List.length_eq_two.mp ((List.length_map _).symm.trans hperm.length_eq)
  have hp := hprogram p (by simp)
  have hq := hprogram q (by simp)
  have horder : (p.id = 1 ∧ q.id = 2) ∨ (p.id = 2 ∧ q.id = 1) := by
    have hone := hperm.mem_iff (a := 1)
    have htwo := hperm.mem_iff (a := 2)
    have hp' := hperm.mem_iff (a := p.id)
    have hq' := hperm.mem_iff (a := q.id)
    simp at hone htwo hp' hq'
    omega
  obtain ⟨hpid, hqid⟩ | ⟨hpid, hqid⟩ := horder
  · rw [hp, hq, hpid, hqid, (serialPrograms_increment p.ts q.ts).1] at hlast
    simp at hlast
  · rw [hp, hq, hpid, hqid, (serialPrograms_increment p.ts q.ts).2] at hlast
    simp at hlast

end System

end

end LedgerDatabase.Distributed
