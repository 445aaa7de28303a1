import LedgerDatabase.Qldb.Equiv.Latest

/-!
# All ledgers of a store

What a store of `qldb` is for, as a machine without a store (`Ledgers`): every key has its documents, and
every ledger has its blocks.  The documents of a key are numbered over all ledgers.  The store refines
the machine in every run on any ledgers (`refines_ledgers`).
-/

namespace LedgerDatabase.Qldb.QLDB

open Ledgerdb.MerkleTree (merkleRoot)

variable {H : Bytes → Hash} {cfg : BPlusConfig} {q q' : QLDB} {name key : Bytes}
  {cs : List (Bytes × SetCall)}

instance (c : SetCall) : Decidable c.Proper :=
  decidable_of_iff (c.keys.Nodup ∧ infi ∉ c.keys) ⟨fun h => ⟨h.1, h.2⟩, fun h => ⟨h.nodup, h.noInfi⟩⟩

/-- The documents of every key, the oldest first, and the blocks of every ledger. -/
structure Ledgers where
  docs : Bytes → List Bytes
  chains : Bytes → List Sealed

namespace Ledgers

/-- No documents and no blocks. -/
def empty : Ledgers := ⟨fun _ => [], fun _ => []⟩

variable (H : Bytes → Hash)

/-- The next block of a ledger, with the documents of a call.  The version of a document is the number
of those that its key has. -/
def block (l : Ledgers) (name : Bytes) (c : SetCall) : Sealed where
  call := c
  documents := c.entries.zipIdx.map
    (documentAt name (l.chains name).length c.env.now fun k => (l.docs k).length)
  prevHash := nextPrevHash H name (l.chains name)

/-- A call adds a block if it writes something. -/
def set (l : Ledgers) (c : Bytes × SetCall) : Ledgers :=
  if c.2.entries = [] then l
  else
    { docs := fun k => l.docs k ++
        (written c.1 k c.2.entries (l.chains c.1).length c.2.env.now (l.docs k).length).toList
      chains := Function.update l.chains c.1 (l.chains c.1 ++ [l.block H c.1 c.2]) }

/-- One call after the other. -/
def run (cs : List (Bytes × SetCall)) : Ledgers := cs.foldl (set H) empty

variable {H} {l : Ledgers}

@[simp]
theorem run_nil : run H [] = empty := rfl

theorem set_of_nil {c : Bytes × SetCall} (h : c.2.entries = []) : l.set H c = l := if_pos h

theorem chains_set (c : Bytes × SetCall) (name : Bytes) :
    (l.set H c).chains name = l.chains name ++
      if c.1 = name ∧ c.2.entries ≠ [] then [l.block H name c.2] else [] := by
  unfold set
  by_cases hempty : c.2.entries = []
  · rw [if_pos hempty, if_neg fun h => h.2 hempty, List.append_nil]
  · rw [if_neg hempty]
    show Function.update l.chains c.1 _ name = _
    by_cases heq : c.1 = name
    · rw [if_pos ⟨heq, hempty⟩, heq, Function.update_self]
    · rw [if_neg fun h => heq h.1, Function.update_of_ne (Ne.symm heq), List.append_nil]

end Ledgers

/-! ### Refinement -/

/-- **The store refines the machine**: it has the documents of every key and the blocks of every
ledger. -/
structure Refines (H : Bytes → Hash) (q : QLDB) (l : Ledgers) : Prop where
  prefixes : Prefixes q
  built : ∀ name, Plain name → Built H name q (l.chains name)
  recorded : ∀ name, Plain name → Recorded name q (l.chains name).length l.docs

variable {l : Ledgers}

/-- The indexes belong to all ledgers. -/
theorem Recorded.other {name' : Bytes} {seqno : ℕ} {docs : Bytes → List Bytes} {bs : List Sealed}
    (h : Recorded name q seqno docs) (hbuilt : Built H name' q bs) :
    Recorded name' q bs.length docs := by
  refine ⟨h.indexed, h.history, h.versions, ?_⟩
  cases bs with
  | nil => exact Or.inl ⟨rfl, hbuilt.tip⟩
  | cons b bs =>
    have hne := hashes_ne_nil H name' (List.cons_ne_nil b bs)
    refine Or.inr ⟨Nat.succ_pos _, (hashes H name' (b :: bs)).getLast hne, ?_⟩
    rw [hbuilt.tip, List.getLast?_eq_some_getLast hne]
    rfl

/-- The documents that a call creates. -/
theorem Recorded.documents_eq {seqno : ℕ} {docs : Bytes → List Bytes}
    {entries : List (Bytes × Bytes)} {env : Env} (h : Recorded name q seqno docs)
    (hlen : ∀ k, (docs k).length ≤ 2 ^ 32) (hname : name.length < 2 ^ 32)
    (s : Call H cfg q name entries env) :
    s.documents = entries.zipIdx.map (documentAt name s.seqno env.now fun k => (docs k).length) := by
  obtain ⟨es, -, hrep, hes⟩ := h.indexed
  have hversion : ∀ k, nextVersion (es.lookup k) = (docs k).length := by
    intro k
    rw [hes k (hlen k)]
    exact h.nextVersion_getLast? (hlen k)
  obtain ⟨hcreated, -⟩ := createDocuments_eq hname hversion hrep s.created_eq
  rw [Call.documents, hcreated, List.map_map]
  rfl

/-- **A call** on any ledger. -/
theorem Refines.set {c : Bytes × SetCall} (h : Refines H q l) (hname : Plain c.1)
    (hproper : c.2.Proper) (hdocs : ∀ k, (l.docs k).length ≤ 2 ^ 32)
    (hchain : (l.chains c.1).length ≤ 2 ^ 64)
    (hrun : (do return (← q.set H cfg c.1 c.2.keys c.2.vals c.2.env).2) = Except.ok q') :
    Refines H q' (l.set H c) := by
  obtain ⟨name, c⟩ := c
  have hcall := SetCall.run_eq hrun
  by_cases hempty : c.entries = []
  · rw [if_pos hempty] at hcall
    rw [hcall, Ledgers.set_of_nil hempty]
    exact h
  · rw [if_neg hempty] at hcall
    have hkeys := c.map_fst_entries.resolve_right hempty
    obtain ⟨s, -, -, -, -, hlen⟩ := addBlock_agree hcall
    have hbuilt := h.built name hname
    -- the block that the call adds
    obtain ⟨hseqno, hprev⟩ : s.seqno = (l.chains name).length ∧
        s.prevHash = nextPrevHash H name (l.chains name) :=
      Prod.mk.inj (Except.ok.inj (s.nextBlock_eq.symm.trans (hbuilt.nextBlock_eq hchain)))
    have hdocuments := (h.recorded name hname).documents_eq hdocs hlen s
    rw [hseqno] at hdocuments
    have hblock : (⟨c, s.documents, s.prevHash⟩ : Sealed) = l.block H name c := by
      rw [hdocuments, hprev]
      rfl
    have hbuilt' : ∀ name', Plain name' → Built H name' q' ((l.set H (name, c)).chains name') := by
      intro name' hplain
      rw [Ledgers.chains_set]
      by_cases heq : name = name'
      · obtain rfl := heq
        rw [if_pos ⟨rfl, hempty⟩, ← hblock]
        exact hbuilt.addBlock h.prefixes hname hchain hempty hcall s
      · rw [if_neg fun hon => heq hon.1, List.append_nil]
        exact (h.built name' hplain).other h.prefixes hplain hname (Ne.symm heq) hcall
    have hrecorded := (h.recorded name hname).addBlock hname.apart (hkeys ▸ hproper.nodup)
      (by rw [QLBTree.NoInfi, hkeys]; exact hproper.noInfi) hcall
    refine ⟨h.prefixes.addBlock hcall, hbuilt', fun name' hplain => ?_⟩
    have hother := hrecorded.other (hbuilt' name' hplain)
    have hset : (l.set H (name, c)).docs = fun k => l.docs k ++
        (written name k c.entries (l.chains name).length c.env.now (l.docs k).length).toList := by
      rw [Ledgers.set, if_neg hempty]
    rwa [hset]

namespace Refines

/-- `GetCommitted` returns the last document. -/
theorem getCommitted (h : Refines H q l) (hname : Plain name) (hdocs : (l.docs key).length ≤ 2 ^ 32) :
    ∃ q', q.getCommitted name key = .ok ((l.docs key).getLast?, q') := by
  obtain ⟨es, -, hrep, hes⟩ := (h.recorded name hname).indexed
  obtain ⟨db', hget, -⟩ := hrep.get key
  rw [hes key hdocs] at hget
  exact ⟨_, by rw [QLDB.getCommitted, hget]; rfl⟩

/-- `GetVersion` returns a document by its number. -/
theorem getVersion (h : Refines H q l) (hname : Plain name) (hdocs : (l.docs key).length ≤ 2 ^ 32)
    (v : ℕ) : ∃ q', q.getVersion name key v = .ok ((l.docs key)[v]?, q') := by
  obtain ⟨hs, -, hrep, hhs⟩ := (h.recorded name hname).history
  obtain ⟨db', hget, -⟩ := hrep.get (historyKey key v)
  rw [hhs key hdocs] at hget
  exact ⟨_, by rw [QLDB.getVersion, hget]; rfl⟩

/-- `GetHistory` returns the last documents, and fails for a key without one. -/
theorem getHistory (h : Refines H q l) (hname : Plain name) (hdocs : (l.docs key).length ≤ 2 ^ 32)
    (n : ℕ) : (q.getHistory name key n).map Prod.fst =
      if l.docs key = [] then .error .nullChunk
      else .ok (((l.docs key).reverse.take (n + 1)).map some) := by
  split_ifs with hnil
  · rw [(h.recorded name hname).getHistory_error hnil]
    rfl
  · obtain ⟨q', hget⟩ := (h.recorded name hname).getHistory_eq hdocs hnil n
    rw [hget]
    rfl

/-- `Range` returns the last documents of the keys between its bounds. -/
theorem range (h : Refines H q l) (hname : Plain name) (hdocs : ∀ k, (l.docs k).length ≤ 2 ^ 32)
    (start stop : Bytes) : ∃ result q', q.range name start stop = .ok (result, q') ∧ result.Ordered ∧
      ∀ k, result.lookup k = if ¬ k < start ∧ ¬ stop < k then (l.docs k).getLast? else none := by
  obtain ⟨es, -, hrep, hes⟩ := (h.recorded name hname).indexed
  obtain ⟨result, db', hrange, -, hord, hlook⟩ := hrep.range start stop
  refine ⟨result, { q with db := db' }, ?_, hord, fun k => ?_⟩
  · rw [QLDB.range, hrange]
    rfl
  · rw [hlook, hes k (hdocs k)]
    rfl

end Refines

end LedgerDatabase.Qldb.QLDB
