import LedgerDatabase.Qldb.Equiv.History

/-!
# The versions of a key

`GetCommitted` returns the document of the last write of a key and `GetVersion` the document of each
write by its version (`getVersion_of_writes`), while the indexes keep the names of their nodes to
themselves.  A ledger `COMMITTED_0` stores its block number one under the name of a leaf, that of the
keys up to `1`, and the key is gone (`not_getVersion`).
-/

namespace LedgerDatabase.Qldb.QLDB

variable {H : Bytes → Hash} {cfg : BPlusConfig} {q : QLDB} {name key : Bytes} {seqno : ℕ}

/-- A write of a key: its value, the block, the position in the batch, and the time. -/
structure Write where
  val : Bytes
  seqno : ℕ
  pos : ℕ
  now : UInt64
  deriving DecidableEq

/-- The writes of a key by the calls, where `seqno` is the number of the next block. -/
def writesOf (key : Bytes) : (seqno : ℕ) → List SetCall → List Write
  | _, [] => []
  | seqno, c :: cs =>
    if c.entries = [] then writesOf key seqno cs
    else ((c.entries.zipIdx.find? fun e => e.1.1 == key).map fun e =>
        (⟨e.1.2, seqno, e.2, c.env.now⟩ : Write)).toList ++ writesOf key (seqno + 1) cs

/-- The document of a write. -/
def Write.document (w : Write) (name key : Bytes) (version : ℕ) : Bytes :=
  documentChunk key w.val ⟨name, w.seqno⟩ ⟨w.pos, version, w.now.toNat⟩

/-- A call has one document of a key at most. -/
theorem written_eq (entries : List (Bytes × Bytes)) (now : UInt64) (version : ℕ) :
    written name key entries seqno now version =
      ((entries.zipIdx.find? fun e => e.1.1 == key).map fun e =>
        (⟨e.1.2, seqno, e.2, now⟩ : Write)).map fun w => w.document name key version := by
  unfold written
  rw [Option.map_map]
  cases hfind : entries.zipIdx.find? fun e => e.1.1 == key with
  | none => rfl
  | some e =>
    have hpred := List.find?_some (p := fun e : (Bytes × Bytes) × ℕ => e.1.1 == key) hfind
    obtain rfl : e.1.1 = key := beq_iff_eq.mp hpred
    rfl

/-- **The documents of a key** are those of its writes, with their numbers as versions. -/
theorem documentsOf_eq {cs : List SetCall} : ∀ {seqno : ℕ} {docs : List Bytes},
    documentsOf name key seqno docs cs = docs ++
      (writesOf key seqno cs).mapIdx fun i w => w.document name key (docs.length + i) := by
  induction cs with
  | nil =>
    intro seqno docs
    rw [documentsOf, writesOf, List.mapIdx_nil, List.append_nil]
  | cons c cs ih =>
    intro seqno docs
    rw [documentsOf, writesOf]
    by_cases hempty : c.entries = []
    · rw [if_pos hempty, if_pos hempty]
      exact ih
    · rw [if_neg hempty, if_neg hempty, ih, written_eq]
      cases c.entries.zipIdx.find? fun e => e.1.1 == key with
      | none => simp
      | some e =>
        simp only [Option.map_some, Option.toList_some, List.singleton_append, List.mapIdx_cons,
          List.append_assoc, List.length_append, List.length_singleton, Nat.add_zero]
        congr 3
        funext i w
        rw [Nat.add_assoc, Nat.add_comm 1 i]

theorem documentsOf_getElem? {cs : List SetCall} (v : ℕ) :
    (documentsOf name key 0 [] cs)[v]? =
      ((writesOf key 0 cs)[v]?).map fun w => w.document name key v := by
  rw [documentsOf_eq, List.nil_append, List.getElem?_mapIdx]
  simp only [List.length_nil, Nat.zero_add]

theorem length_documentsOf {cs : List SetCall} :
    (documentsOf name key 0 [] cs).length = (writesOf key 0 cs).length := by
  rw [documentsOf_eq, List.nil_append, List.length_mapIdx]

/-- **Versions**: after calls that leave the nodes of the indexes alone, `GetCommitted` returns the
document of the last write of a key, and `GetVersion` that of each one. -/
theorem getVersion_of_writes {cs : List SetCall} (hapart : Apart name) (hcalls : ∀ c ∈ cs, c.Proper)
    (hrun : setAll H cfg name emptyLedger cs = .ok q) (hne : writesOf key 0 cs ≠ [])
    (hlen : (writesOf key 0 cs).length ≤ 2 ^ 32) :
    (∃ q', q.getCommitted name key = .ok (some (((writesOf key 0 cs).getLast hne).document name key
      ((writesOf key 0 cs).length - 1)), q')) ∧
    ∀ v (hv : v < (writesOf key 0 cs).length), ∃ q',
      q.getVersion name key v = .ok (some ((writesOf key 0 cs)[v].document name key v), q') := by
  obtain ⟨seqno, h⟩ := (recorded_emptyLedger name).setAll hapart hcalls hrun
  have hlen' : (documentsOf name key 0 [] cs).length ≤ 2 ^ 32 := by
    rw [length_documentsOf]
    exact hlen
  constructor
  · obtain ⟨es, -, hrep, hes⟩ := h.indexed
    obtain ⟨db', hget, -⟩ := hrep.get key
    refine ⟨{ q with db := db' }, ?_⟩
    have hlast : (documentsOf name key 0 [] cs).getLast? =
        some (((writesOf key 0 cs).getLast hne).document name key
          ((writesOf key 0 cs).length - 1)) := by
      rw [List.getLast?_eq_getElem?, documentsOf_getElem?, length_documentsOf,
        ← List.getLast?_eq_getElem?, List.getLast?_eq_some_getLast hne]
      rfl
    rw [getCommitted, hget, hes key hlen', hlast]
    rfl
  · intro v hv
    obtain ⟨hs, -, hrep, hhs⟩ := h.history
    obtain ⟨db', hget, -⟩ := hrep.get (historyKey key v)
    refine ⟨{ q with db := db' }, ?_⟩
    rw [getVersion, hget, hhs key hlen', documentsOf_getElem?, List.getElem?_eq_getElem hv]
    rfl

theorem getVersion_of_writes_one : ∃ q,
    setAll (Hash.ofTable []) {} (str "test") emptyLedger [oneCall] = .ok q ∧
      ∃ q', q.getVersion (str "test") (str "k") 0 =
        .ok (some (Write.document ⟨str "v", 0, 0, 1700000000000⟩ (str "test") (str "k") 0), q') := by
  obtain ⟨q, hrun⟩ := exists_oneCall
  have hapart : Apart (str "test") := by
    apply apart_of_head?
    intro b hb
    obtain rfl : 116 = b := Option.some.inj hb
    decide
  have hcalls : ∀ c ∈ [oneCall], c.Proper := by
    intro c hc
    rw [List.mem_singleton.mp hc]
    exact ⟨by decide, by decide⟩
  have hwrites : writesOf (str "k") 0 [oneCall] = [⟨str "v", 0, 0, 1700000000000⟩] := by decide
  have hne : writesOf (str "k") 0 [oneCall] ≠ [] := by
    rw [hwrites]
    exact List.cons_ne_nil _ _
  have hget := (getVersion_of_writes hapart hcalls hrun hne (by rw [hwrites]; decide)).2 0
    (by rw [hwrites]; exact Nat.one_pos)
  simp only [hwrites] at hget
  exact ⟨q, hrun, hget⟩

/-- The keys `1` and `2` in one block each. -/
def barCalls : List SetCall :=
  [⟨[str "1"], [str "v"], envA 0⟩, ⟨[str "2"], [str "v"], envA 0⟩]

/-- Block number one takes the place of the leaf with the key `1`. -/
theorem not_getVersion : ∃ q,
    setAll (Hash.ofTable []) { fanout := 1, leafFanout := 1 } (str "COMMITTED_0") emptyLedger
      barCalls = .ok q ∧
    (∀ c ∈ barCalls, c.Proper) ∧ writesOf (str "1") 0 barCalls = [⟨str "v", 0, 0, 1700000000000⟩] ∧
    ∃ q', q.getCommitted (str "COMMITTED_0") (str "1") = .ok (none, q') := by
  have hnone : ((setAll (Hash.ofTable []) { fanout := 1, leafFanout := 1 } (str "COMMITTED_0")
      emptyLedger barCalls).map fun q =>
      (q.getCommitted (str "COMMITTED_0") (str "1")).map Prod.fst) = .ok (.ok none) := by
    decide +kernel
  cases hrun : setAll (Hash.ofTable []) { fanout := 1, leafFanout := 1 } (str "COMMITTED_0")
      emptyLedger barCalls with
  | error e =>
    rw [hrun] at hnone
    cases hnone
  | ok q =>
    rw [hrun] at hnone
    have hget : (q.getCommitted (str "COMMITTED_0") (str "1")).map Prod.fst = .ok none :=
      Except.ok.inj hnone
    refine ⟨q, rfl, ?_, by decide, ?_⟩
    · intro c hc
      simp only [barCalls, List.mem_cons, List.not_mem_nil, or_false] at hc
      rcases hc with rfl | rfl
      · exact ⟨by decide, by decide⟩
      · exact ⟨by decide, by decide⟩
    · cases hgot : q.getCommitted (str "COMMITTED_0") (str "1") with
      | error e =>
        rw [hgot] at hget
        cases hget
      | ok r =>
        rw [hgot] at hget
        obtain ⟨d, q'⟩ := r
        obtain rfl : d = none := Except.ok.inj hget
        exact ⟨q', rfl⟩

end LedgerDatabase.Qldb.QLDB
