import LedgerDatabase.Qldb.Equiv.BlockHash

/-!
# Runs of a ledger

The string under the name of a ledger is `{number}|{hash}` for the last block.  A call of `Set` reads
it at its start and writes it at its end (`addBlock_tip`), so in a run on one ledger the numbers go up
by one.

`CreateLedger` writes `0`, which is read as the number of a block that is not there.  So the first
block of such a ledger has number one (`createLedger_never`).
-/

namespace LedgerDatabase.Qldb.QLDB

variable {H : Bytes → Hash} {cfg : BPlusConfig} {q q' : QLDB} {name : Bytes}

/-! ### Runs -/

/-- A call of `Set`. -/
structure SetCall where
  keys : List Bytes
  vals : List Bytes
  env : Env

/-- The call adds a block. -/
structure SetCall.Adds (c : SetCall) : Prop where
  nonempty : c.keys ≠ []
  paired : c.keys.length = c.vals.length

/-- One call after the other, on one ledger. -/
def setAll (H : Bytes → Hash) (cfg : BPlusConfig) (name : Bytes) (q : QLDB) (cs : List SetCall) :
    Except Fault QLDB :=
  cs.foldlM (fun q c => do return (← q.set H cfg name c.keys c.vals c.env).2) q

theorem setAll_concat (cs : List SetCall) (c : SetCall) :
    setAll H cfg name q (cs ++ [c]) =
      setAll H cfg name q cs >>= fun q => do return (← q.set H cfg name c.keys c.vals c.env).2 := by
  rw [setAll, List.foldlM_append]
  congr 1
  funext q
  rw [List.foldlM_cons]
  exact bind_pure _

/-- A call that adds a block. -/
theorem SetCall.Adds.set_eq {c : SetCall} (h : c.Adds)
    (hrun : (do return (← q.set H cfg name c.keys c.vals c.env).2) = Except.ok q') :
    addBlock H cfg q name (c.keys.zip c.vals) c.env = .ok q' := by
  obtain ⟨⟨b, q₁⟩, hset, hrun⟩ := bind_eq_ok_iff.mp hrun
  obtain rfl : q₁ = q' := Except.ok.inj hrun
  rw [set, if_neg (not_not.mpr h.paired),
    if_neg fun hlen => h.nonempty (List.length_eq_zero_iff.mp hlen)] at hset
  obtain ⟨q₂, hadd, heq⟩ := bind_eq_ok_iff.mp hset
  obtain ⟨-, rfl⟩ := Prod.mk.inj (Except.ok.inj heq)
  exact hadd

/-! ### The last block -/

/-- What is stored for a block as the last one. -/
def tipRecord (seqno : ℕ) (blockHash : Hash) : Bytes :=
  toDecimal seqno ++ str "|" ++ blockHash.toBase32

theorem find_tipRecord (seqno : ℕ) (blockHash : Hash) :
    find (tipRecord seqno blockHash) 124 = (toDecimal seqno).length := by
  have hdec : (124 : UInt8) ∉ toDecimal seqno := not_mem_toDecimal (by decide) seqno
  have hmem : (124 : UInt8) ∈ tipRecord seqno blockHash := by
    simp [tipRecord, show str "|" = [124] from rfl]
  rw [find, if_pos hmem, tipRecord, List.append_assoc, List.idxOf_append_of_notMem hdec]
  rfl

/-- The number of the block. -/
theorem substr_tipRecord (seqno : ℕ) (blockHash : Hash) :
    substr (tipRecord seqno blockHash) 0 (find (tipRecord seqno blockHash) 124) =
      .ok (toDecimal seqno) := by
  rw [find_tipRecord, substr, if_neg (Nat.not_lt_zero _), List.drop_zero, tipRecord,
    List.append_assoc, List.take_left]

/-- The next block has the next number. -/
theorem nextBlock_tipRecord {seqno seqno' : ℕ} {blockHash prevHash : Hash}
    (h : nextBlock H (tipRecord seqno blockHash) = .ok (seqno', prevHash)) : seqno' = seqno + 1 := by
  have hne : tipRecord seqno blockHash ≠ [] := by
    simp [tipRecord, toDecimal_ne_nil]
  rw [nextBlock, if_neg hne] at h
  simp only [substr_tipRecord, ok_bind, stoul_toDecimal] at h
  obtain ⟨hash, -, h⟩ := bind_eq_ok_iff.mp h
  exact (Prod.mk.inj (Except.ok.inj h)).1.symm

/-- **A call of `Set`** reads the last block and stores its own one as the last. -/
theorem addBlock_tip {entries : List (Bytes × Bytes)} {env : Env}
    (h : addBlock H cfg q name entries env = .ok q') :
    ∃ seqno prevHash blockHash,
      nextBlock H ((q.db.getString name).getD []) = .ok (seqno, prevHash) ∧
      q'.db.getString name = some (tipRecord seqno blockHash) := by
  obtain ⟨c, db₄, block, -, -, rfl⟩ := addBlock_inv h
  refine ⟨c.seqno, c.prevHash, c.blockHash, c.nextBlock_eq, ?_⟩
  rw [DB.getString_putString, if_pos rfl]
  rfl

/-- `digest` names the last block. -/
theorem digest_of_tipRecord {seqno : ℕ} {blockHash : Hash}
    (h : q.db.getString name = some (tipRecord seqno blockHash)) :
    ∃ d, q.digest name = .ok ⟨seqno, d⟩ := by
  have hne : tipRecord seqno blockHash ≠ [] := by
    simp [tipRecord, toDecimal_ne_nil]
  refine ⟨(q.db.getString (digestKey name)).getD [], ?_⟩
  rw [digest, h]
  simp only [Option.getD_some, if_neg hne, substr_tipRecord, ok_bind, stoul_toDecimal]
  rfl

/-! ### `CreateLedger` -/

/-- A ledger that started empty, after `n` blocks. -/
structure StartsEmpty (H : Bytes → Hash) (q : QLDB) (name : Bytes) (n : ℕ) : Prop where
  numbered : ∀ i, (q.db.chunkAt (blockKey name i)).isSome ↔ i < n
  tip : ∃ d, q.digest name = .ok ⟨n - 1, d⟩
  genesis : ∀ c, q.db.chunkAt (blockKey name 0) = some c →
    (QLBlock.ofChunk c).previousHash = H (str "0")
  chained : ∀ i c c', q.db.chunkAt (blockKey name i) = some c →
    q.db.chunkAt (blockKey name (i + 1)) = some c' →
    (QLBlock.ofChunk c').previousHash = (QLBlock.ofChunk c).blockHash
  proofs : ∀ info i c seq d, q.digest name = .ok info → q.db.chunkAt (blockKey name i) = some c →
    (QLBlock.ofChunk c).documents[seq]? = some d →
    ∃ r q', q.getProof name info.tip i seq = .ok (r, q') ∧
      r.verify H (Hash.fromBase32 info.digest) = .ok true

/-- After `n` calls the last block of a ledger from `CreateLedger` has number `n`. -/
theorem createLedger_tip {c : SetCall} {cs : List SetCall} (hadds : ∀ c' ∈ cs ++ [c], c'.Adds)
    (hrun : setAll H cfg name (q.createLedger name) (cs ++ [c]) = .ok q') :
    ∃ blockHash, q'.db.getString name = some (tipRecord (cs.length + 1) blockHash) := by
  induction cs using List.reverseRecOn generalizing c q' with
  | nil =>
    have hone : setAll H cfg name (q.createLedger name) ([] ++ [c]) =
        (do return (← (q.createLedger name).set H cfg name c.keys c.vals c.env).2) :=
      setAll_concat [] c
    rw [hone] at hrun
    obtain ⟨seqno, prevHash, blockHash, hnext, htip⟩ :=
      addBlock_tip ((hadds c (by simp)).set_eq hrun)
    refine ⟨blockHash, ?_⟩
    -- `0` is read as the number of the last block
    have hzero : ((q.createLedger name).db.getString name).getD [] = str "0" := by
      rw [createLedger, DB.getString_putString, if_pos rfl]
      rfl
    rw [hzero] at hnext
    obtain ⟨rfl, -⟩ := Prod.mk.inj (Except.ok.inj (hnext.symm.trans
      (show nextBlock H (str "0") = .ok (1, Hash.fromBase32 (str "0")) from rfl)))
    exact htip
  | append_singleton cs c₀ ih =>
    rw [setAll_concat] at hrun
    obtain ⟨q₁, hinit, hstep⟩ := bind_eq_ok_iff.mp hrun
    obtain ⟨lastHash, hlast⟩ := ih (fun c' hc' => hadds c' (List.mem_append_left _ hc')) hinit
    obtain ⟨seqno, prevHash, blockHash, hnext, htip⟩ :=
      addBlock_tip ((hadds c (by simp)).set_eq hstep)
    rw [hlast, Option.getD_some] at hnext
    obtain rfl := nextBlock_tipRecord hnext
    refine ⟨blockHash, ?_⟩
    rw [htip, List.length_append, List.length_singleton]

/-- **`CreateLedger` never starts an empty ledger**: after `n` blocks the last one has number `n`. -/
theorem createLedger_never {cs : List SetCall} (hne : cs ≠ []) (hadds : ∀ c ∈ cs, c.Adds)
    (hrun : setAll H cfg name (q.createLedger name) cs = .ok q') :
    (∃ d, q'.digest name = .ok ⟨cs.length, d⟩) ∧ ¬ StartsEmpty H q' name cs.length := by
  obtain ⟨cs, c, rfl⟩ := (List.eq_nil_or_concat cs).resolve_left hne
  rw [List.concat_eq_append] at hadds hrun ⊢
  obtain ⟨blockHash, htip⟩ := createLedger_tip hadds hrun
  rw [List.length_append, List.length_singleton]
  obtain ⟨d, hdigest⟩ := digest_of_tipRecord htip
  refine ⟨⟨d, hdigest⟩, fun hempty => ?_⟩
  obtain ⟨d', hdigest'⟩ := hempty.tip
  rw [hdigest] at hdigest'
  have heq : cs.length + 1 = cs.length + 1 - 1 := congrArg DigestInfo.tip (Except.ok.inj hdigest')
  omega

/-- One document in one block. -/
def oneCall : SetCall := ⟨[str "k"], [str "v"], envA 0⟩

theorem createLedger_never_one :
    ∃ q', setAll (Hash.ofTable []) {} (str "test") (emptyLedger.createLedger (str "test")) [oneCall]
        = .ok q' ∧
      (∃ d, q'.digest (str "test") = .ok ⟨1, d⟩) ∧
      ¬ StartsEmpty (Hash.ofTable []) q' (str "test") 1 := by
  have hok : (setAll (Hash.ofTable []) {} (str "test") (emptyLedger.createLedger (str "test"))
      [oneCall]).toBool := by decide +kernel
  cases hrun : setAll (Hash.ofTable []) {} (str "test") (emptyLedger.createLedger (str "test"))
      [oneCall] with
  | error e =>
    rw [hrun] at hok
    cases hok
  | ok q' =>
    have hadds : ∀ c ∈ [oneCall], c.Adds := by
      intro c hc
      rw [List.mem_singleton.mp hc]
      exact ⟨by decide, rfl⟩
    exact ⟨q', rfl, createLedger_never (by simp) hadds hrun⟩

/-- The first block has number one, and there is no block zero. -/
theorem createLedger_skips_zero :
    ∃ q', setAll (Hash.ofTable []) {} (str "test") (emptyLedger.createLedger (str "test")) [oneCall]
        = .ok q' ∧
      q'.db.chunkAt (blockKey (str "test") 0) = none ∧
      ¬ StartsEmpty (Hash.ofTable []) q' (str "test") 1 := by
  have hzero : ((setAll (Hash.ofTable []) {} (str "test") (emptyLedger.createLedger (str "test"))
      [oneCall]).map fun q' => q'.db.chunkAt (blockKey (str "test") 0)) = .ok none := by
    decide +kernel
  cases hrun : setAll (Hash.ofTable []) {} (str "test") (emptyLedger.createLedger (str "test"))
      [oneCall] with
  | error e =>
    rw [hrun] at hzero
    cases hzero
  | ok q' =>
    rw [hrun] at hzero
    have hnone : q'.db.chunkAt (blockKey (str "test") 0) = none := Except.ok.inj hzero
    refine ⟨q', rfl, hnone, fun hempty => ?_⟩
    have hsome := (hempty.numbered 0).mpr Nat.one_pos
    rw [hnone] at hsome
    cases hsome

end LedgerDatabase.Qldb.QLDB
