import LedgerDatabase.Common.Equiv.Bytes
import LedgerDatabase.Distributed.QldbClient

/-!
# What becomes of the verdict on a proof

The callback of `BatchGet` and `GetRange` computes a verdict and calls the overload of
`Promise::Reply` that has no place for it (`verify_batchGetCallback`); `Commit` gets the verdict and
does not read it.  What `Client` returns depends on the status of the replies only
(`reportsFailure_iff`).
-/

namespace LedgerDatabase.Distributed

variable {H : Bytes → Hash}

namespace QLDBReply

theorem batchGetCallback_eq {reply : QLDBReply} {p : Promise}
    (h : reply.batchGetCallback H = .ok p) : p.reply = reply.status ∧ p.verify = none := by
  obtain ⟨vs, -, h⟩ := bind_eq_ok_iff.mp h
  obtain rfl := Except.ok.inj h
  exact ⟨rfl, rfl⟩

/-- The verdict does not reach the promise. -/
theorem verify_batchGetCallback {reply : QLDBReply} {p : Promise}
    (h : reply.batchGetCallback H = .ok p) : p.verify = none := (batchGetCallback_eq h).2

/-- A failing proof spoils the verdict, wherever it stands. -/
theorem verifyStatus_eq_failed {digest : Hash} {proofs : List QLDBProof} {vs vs' : VerifyStatus}
    {p : QLDBProof} (hp : p ∈ proofs) (hfail : (prover p).verify H digest = .ok false)
    (h : verifyStatus H digest proofs vs = .ok vs') : vs' = .failed := by
  have hfailed : ∀ (proofs : List QLDBProof) {vs' : VerifyStatus},
      verifyStatus H digest proofs .failed = .ok vs' → vs' = .failed := by
    intro proofs
    induction proofs with
    | nil => exact fun h => (Except.ok.inj h).symm
    | cons p proofs ih =>
      intro vs' h
      obtain ⟨verified, -, h⟩ := bind_eq_ok_iff.mp h
      rw [ite_self] at h
      exact ih h
  induction proofs generalizing vs with
  | nil => cases hp
  | cons q proofs ih =>
    obtain ⟨verified, hverified, h⟩ := bind_eq_ok_iff.mp h
    rcases List.mem_cons.mp hp with rfl | hp
    · obtain rfl := Except.ok.inj (hverified.symm.trans hfail)
      exact hfailed proofs h
    · exact ih hp h

/-- The verdict reaches the promise of a commit. -/
theorem verify_commitCallback {reply : QLDBReply} {promise : Promise} {p : QLDBProof}
    (hp : p ∈ reply.qproof) (hfail : (prover p).verify H (Hash.fromBase32 reply.hash) = .ok false)
    (h : reply.commitCallback H = .ok promise) : promise.verify = some .failed := by
  rw [commitCallback] at h
  split at h
  · cases h
  · obtain ⟨vs, hvs, h⟩ := bind_eq_ok_iff.mp h
    obtain rfl := Except.ok.inj h
    rw [← verifyStatus_eq_failed hp hfail hvs]
    rfl

end QLDBReply

namespace Client

theorem readPromises_eq {clearBuffer : Bool} {replies : ℕ → QLDBReply} {shards : List ℕ}
    {c c' : Client} {promises : List (ℕ × Promise)}
    (h : readPromises H clearBuffer replies shards c = .ok (promises, c')) :
    promises.map (fun e => (e.1, e.2.reply)) = shards.map fun s => (s, (replies s).status) := by
  induction shards generalizing c promises with
  | nil =>
    obtain ⟨rfl, -⟩ := Prod.mk.inj (Except.ok.inj h)
    rfl
  | cons s shards ih =>
    rw [readPromises] at h
    obtain ⟨p, hp, h⟩ := bind_eq_ok_iff.mp h
    obtain ⟨b, -, h⟩ := bind_eq_ok_iff.mp h
    obtain ⟨⟨rest, c₁⟩, hrest, h⟩ := bind_eq_ok_iff.mp h
    obtain ⟨rfl, rfl⟩ := Prod.mk.inj (Except.ok.inj h)
    rw [List.map_cons, List.map_cons, ih hrest, (QLDBReply.batchGetCallback_eq hp).1]

/-- The status of `BatchGet` and `GetRange` is `REPLY_OK` unless some promise has another one. -/
theorem status_collect_iff (promises : List (ℕ × Promise))
    (acc : Int32 × StdMap Bytes × UnverifiedKeys) :
    (promises.foldl collect acc).1 ≠ 0 ↔ acc.1 ≠ 0 ∨ ∃ e ∈ promises, e.2.reply ≠ 0 := by
  refine SortedMap.foldl_iff_or (P := fun acc => acc.1 ≠ 0) (fun acc e => ?_) promises acc
  rw [collect]
  split <;> simp [*]

theorem reportsFailure_readResult {clearBuffer : Bool} {replies : ℕ → QLDBReply} {shards : List ℕ}
    {c c' : Client} {promises : List (ℕ × Promise)} (values : StdMap Bytes) (keys : UnverifiedKeys)
    (h : readPromises H clearBuffer replies shards c = .ok (promises, c')) :
    (readResult values keys promises c').ReportsFailure ↔ ∃ s ∈ shards, (replies s).status ≠ 0 := by
  have hstatus : (∃ e ∈ promises, e.2.reply ≠ 0) ↔ ∃ s ∈ shards, (replies s).status ≠ 0 := by
    have hmap : (∃ e ∈ promises.map fun e => (e.1, e.2.reply), e.2 ≠ 0) ↔
        ∃ e ∈ shards.map fun s => (s, (replies s).status), e.2 ≠ 0 := by
      rw [readPromises_eq h]
    simpa using hmap
  rw [ProofResult.ReportsFailure, readResult]
  exact (status_collect_iff promises _).trans (by rw [hstatus]; simp)

/-- What a call reports depends on the statuses of the replies, and `Commit` reports nothing. -/
theorem reportsFailure_iff {nshards : ℕ} {replies : ℕ → QLDBReply} {values : StdMap Bytes}
    {keys : UnverifiedKeys} {c : Client} {call : ProofCall} {r : ProofResult}
    (h : c.proofCall H nshards replies values keys call = .ok r) :
    r.ReportsFailure ↔ call ≠ .commit ∧ ∃ s ∈ c.asked nshards call, (replies s).status ≠ 0 := by
  cases call with
  | batchGet =>
    obtain ⟨⟨promises, c'⟩, hpromises, h⟩ := bind_eq_ok_iff.mp h
    obtain rfl := Except.ok.inj h
    rw [reportsFailure_readResult values keys hpromises]
    simp [asked]
  | getRange =>
    obtain ⟨⟨promises, c'⟩, hpromises, h⟩ := bind_eq_ok_iff.mp h
    obtain rfl := Except.ok.inj h
    rw [reportsFailure_readResult values keys hpromises]
    simp [asked]
  | commit =>
    obtain ⟨promises, -, h⟩ := bind_eq_ok_iff.mp h
    obtain rfl := Except.ok.inj h
    simp [ProofResult.ReportsFailure]

/-- **A failed proof is reported** exactly by a `BatchGet` or `GetRange` that gets an error from some
shard as well. -/
theorem failed_proof_reported_iff (H : Bytes → Hash) (nshards : ℕ) (replies : ℕ → QLDBReply)
    (values : StdMap Bytes) (keys : UnverifiedKeys) (c : Client) (call : ProofCall) (r : ProofResult)
    (h : c.proofCall H nshards replies values keys call = .ok r)
    (_hfail : ∃ s ∈ c.asked nshards call, ∃ p ∈ (replies s).qproof,
      (QLDBReply.prover p).verify H (Hash.fromBase32 (replies s).hash) = .ok false) :
    r.ReportsFailure ↔ call ≠ .commit ∧ ∃ s ∈ c.asked nshards call, (replies s).status ≠ 0 :=
  reportsFailure_iff h

/-- A client with one participant. -/
def oneShard : Client := { tId := 1, participants := [0] }

/-- A reply with a document of the block with number 0, whose digest is not its hash. -/
def forgedReply (status : Int32) : QLDBReply where
  status
  hash := str "BAAAAAAAAAAAAAAAAAAAAAAAAAAAAAAA"
  qproof := [{ key := [97], value := [98] }]

/-- A read of a forged document from a shard that also reports an error. -/
theorem failed_proof_reported : ∃ r,
    oneShard.proofCall (Hash.ofTable []) 1 (fun _ => forgedReply (-1)) [] .empty .batchGet = .ok r ∧
      r.ReportsFailure := by
  refine ⟨_, rfl, (failed_proof_reported_iff (Hash.ofTable []) 1 (fun _ => forgedReply (-1)) []
    .empty oneShard .batchGet _ rfl ?_).mpr ?_⟩
  · exact ⟨0, by decide, _, List.mem_singleton_self _, by decide +kernel⟩
  · exact ⟨by decide, 0, by decide, by decide⟩

/-- A read of a forged document that succeeds. -/
theorem failed_proof_unreported : ¬ ∀ (H : Bytes → Hash) (nshards : ℕ) (replies : ℕ → QLDBReply)
    (values : StdMap Bytes) (keys : UnverifiedKeys) (c : Client) (call : ProofCall)
    (r : ProofResult), c.proofCall H nshards replies values keys call = .ok r →
    (∃ s ∈ c.asked nshards call, ∃ p ∈ (replies s).qproof,
      (QLDBReply.prover p).verify H (Hash.fromBase32 (replies s).hash) = .ok false) →
    r.ReportsFailure := by
  intro h
  have hreported := h (Hash.ofTable []) 1 (fun _ => forgedReply 0) [] .empty oneShard .batchGet _ rfl
    ⟨0, by decide, _, List.mem_singleton_self _, by decide +kernel⟩
  revert hreported
  decide +kernel

end Client

end LedgerDatabase.Distributed
