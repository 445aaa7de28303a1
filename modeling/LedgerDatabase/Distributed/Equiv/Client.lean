import LedgerDatabase.Common.Equiv.Bytes
import LedgerDatabase.Distributed.Client
import LedgerDatabase.Distributed.Equiv.Transaction

/-!
# What a client buffers

The tables of a client have distinct keys and are empty for shards that do not take part
(`Client.Wf`); its operations keep both.
-/

namespace LedgerDatabase.Distributed

namespace Client

@[simp]
theorem tId_calls (nshards : ℕ) (c : Client) (ops : List Op) :
    (c.calls nshards ops).tId = c.tId := by
  induction ops generalizing c with
  | nil => rfl
  | cons op ops ih => exact ih _

theorem tId_batchGetLoop {replies : ℕ → TxnReply} {ps : List ℕ} {c c' : Client}
    {values values' : StdMap Bytes} (h : batchGetLoop replies ps c values = .ok (c', values')) :
    c'.tId = c.tId := by
  induction ps generalizing c values with
  | nil =>
    obtain ⟨rfl, -⟩ := Prod.mk.inj (Except.ok.inj h)
    rfl
  | cons p ps ih =>
    rw [batchGetLoop] at h
    obtain ⟨b, -, h⟩ := bind_eq_ok_iff.mp h
    have hrest := ih h
    exact hrest

/-- The merged status is `REPLY_OK` when all answers are. -/
theorem mergeReplies_ok_iff (ts : ℕ) (replies : List TxnReply) :
    (mergeReplies ts replies).1 = .ok ↔ ∀ r ∈ replies, r.status = .ok := by
  have hloop : ∀ (replies : List TxnReply) (acc : ReplyStatus × ℕ),
      (replies.foldl mergeReply acc).1 = .ok ↔ acc.1 = .ok ∧ ∀ r ∈ replies, r.status = .ok := by
    intro replies
    induction replies with
    | nil => simp
    | cons r replies ih =>
      intro acc
      rw [List.foldl_cons, ih]
      have hround : (mergeReply acc r).1 = .ok ↔ acc.1 = .ok ∧ r.status = .ok := by
        rw [mergeReply]
        by_cases hr : r.status = .ok
        · simp [hr]
        · by_cases hf : acc.1 = .fail
          · simp [hr, hf]
          · simp [hr, hf]
      rw [hround, List.forall_mem_cons, and_assoc]
  rw [mergeReplies, hloop]
  simp

/-! ### Tables -/

/-- The transactions have distinct keys, and only participants have one. -/
structure Wf (c : Client) : Prop where
  nodup : c.participants.Nodup
  keyed : ∀ s, (c.bclient s).txn.Keyed
  empty : ∀ s, s ∉ c.participants → (c.bclient s).txn = {}

theorem wf_begin (id : ℕ) : (begin id).Wf :=
  ⟨List.nodup_nil, fun _ => Transaction.keyed_empty, fun _ _ => rfl⟩

/-- A participant gets a new table. -/
theorem Wf.update {c : Client} (h : c.Wf) {participants : List ℕ} {s : ℕ}
    (hnodup : participants.Nodup) (hsub : ∀ p ∈ c.participants, p ∈ participants)
    (hs : s ∈ participants) {b : BufferClient} (hb : b.txn.Keyed) :
    Wf { c with participants, bclient := Function.update c.bclient s b } := by
  refine ⟨hnodup, ?_, ?_⟩
  · intro s'
    by_cases he : s' = s
    · subst he
      simpa using hb
    · simpa [Function.update_of_ne he] using h.keyed s'
  · intro s' hs'
    have he : s' ≠ s := by
      rintro rfl
      exact hs' hs
    simpa [Function.update_of_ne he] using h.empty s' fun hmem => hs' (hsub s' hmem)

theorem keyed_apply {b : BufferClient} (h : b.txn.Keyed) (op : Op) : (op.apply b).txn.Keyed := by
  cases op with
  | get key =>
    rw [Op.apply, BufferClient.get]
    split
    · exact h
    · split
      · exact h
      · exact h.addReadSet key {}
  | getNVersions key n => exact h
  | bufferKey key => exact h
  | put key value => exact h.addWriteSet key value

theorem mem_participants_call (nshards : ℕ) (c : Client) (op : Op) (p : ℕ) :
    p ∈ (c.call nshards op).participants ↔
      p ∈ c.participants ∨ p = keyToShard op.key nshards := by
  unfold call
  dsimp only
  split
  · rename_i hmem
    constructor
    · exact Or.inl
    · rintro (h | rfl)
      · exact h
      · exact hmem
  · rw [List.mem_orderedInsert, or_comm]

theorem nodup_participants_call {c : Client} (h : c.participants.Nodup) (nshards : ℕ) (op : Op) :
    (c.call nshards op).participants.Nodup := by
  unfold call
  dsimp only
  split
  · exact h
  · rename_i hmem
    exact (List.perm_orderedInsert _ _ _).nodup_iff.mpr (List.nodup_cons.mpr ⟨hmem, h⟩)

theorem Wf.calls {c : Client} (h : c.Wf) (nshards : ℕ) (ops : List Op) :
    (c.calls nshards ops).Wf := by
  induction ops generalizing c with
  | nil => exact h
  | cons op ops ih =>
    refine ih (h.update (nodup_participants_call h.nodup nshards op) ?_ ?_
      (keyed_apply (h.keyed _) op))
    · intro p hp
      exact (mem_participants_call nshards c op p).mpr (Or.inl hp)
    · exact (mem_participants_call nshards c op _).mpr (Or.inr rfl)

theorem keyed_addReads {timestamps : List ℕ} {count : ℕ} {values : StdMap Bytes}
    {txn txn' : Transaction} (h : txn.Keyed)
    (hadd : BufferClient.addReads timestamps count values txn = .ok txn') : txn'.Keyed := by
  induction values generalizing count txn with
  | nil =>
    obtain rfl := Except.ok.inj hadd
    exact h
  | cons e values ih =>
    obtain ⟨key, value⟩ := e
    rw [BufferClient.addReads] at hadd
    obtain ⟨t, -, hadd⟩ := bind_eq_ok_iff.mp hadd
    exact ih (h.addReadSet key _) hadd

theorem keyed_batchGet {b b' : BufferClient} {reply : TxnReply} (h : b.txn.Keyed)
    (hget : b.batchGet reply = .ok b') : b'.txn.Keyed := by
  rw [BufferClient.batchGet] at hget
  split at hget
  · obtain ⟨txn, hadd, hget⟩ := bind_eq_ok_iff.mp hget
    obtain rfl := Except.ok.inj hget
    exact keyed_addReads h hadd
  · obtain rfl := Except.ok.inj hget
    exact h

theorem Wf.batchGetLoop {replies : ℕ → TxnReply} {ps : List ℕ} {c c' : Client}
    {values values' : StdMap Bytes} (h : c.Wf) (hps : ∀ p ∈ ps, p ∈ c.participants)
    (hloop : Client.batchGetLoop replies ps c values = .ok (c', values')) : c'.Wf := by
  induction ps generalizing c values with
  | nil =>
    obtain ⟨rfl, -⟩ := Prod.mk.inj (Except.ok.inj hloop)
    exact h
  | cons p ps ih =>
    rw [Client.batchGetLoop] at hloop
    obtain ⟨b, hb, hloop⟩ := bind_eq_ok_iff.mp hloop
    refine ih ?_ ?_ hloop
    · exact h.update h.nodup (fun _ => id) (hps p (List.mem_cons_self ..))
        (keyed_batchGet (h.keyed p) hb)
    · exact fun q hq => hps q (List.mem_cons_of_mem _ hq)

end Client

end LedgerDatabase.Distributed
