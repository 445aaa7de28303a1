import LedgerDatabase.Common.Equiv.Bytes
import LedgerDatabase.Distributed.ShardClient

/-!
# What `PASS` of `GetProofCallback` means

The callback withdraws `PASS` only in the loop over the proofs that the server has sent, so it
passes exactly when none of these is rejected (`checkProofs_eq_pass_iff`).  Nothing is asked of a
key beyond the last proof, of a proof without chunks, or of the root that a Merkle proof names;
`getProofCallback_sound_iff` says when `PASS` nevertheless stands for all requested keys.
-/

namespace LedgerDatabase.Distributed.ShardClient

open Ledgerdb

section

variable (H : Bytes → Hash)

/-- `VerifyProof` accepts the chunks of a proof for a key under the trie digest of the reply. -/
def MptAccepted (reply : Reply) (key : Bytes) (p : LedgerDBProof) : Prop :=
  ∃ prover, mptProver p = .ok prover ∧
    prover.verifyProof H (Hash.fromBase32 reply.digest.mptHash) key = .ok true

/-- `Verify` accepts the Merkle proof. -/
def MtAccepted (p : LedgerDBProof) : Prop := (mtProver p).verify H = .ok true

/-- The proof with index `i` is rejected: its chunks for the key with that index, or its Merkle
proof. -/
def Rejected (reply : Reply) (keys : List Bytes) (i : ℕ) (p : LedgerDBProof) : Prop :=
  (p.mptChunks ≠ [] ∧ ¬ ∃ key, keys[i]? = some key ∧ MptAccepted H reply key p) ∨ ¬ MtAccepted H p

/-- The reply proves the key with index `i`: it has chunks for it that were accepted, and an
accepted Merkle proof with the root of the digest. -/
def Proven (reply : Reply) (key : Bytes) (i : ℕ) : Prop :=
  ∃ p, reply.proof[i]? = some p ∧ p.mptChunks ≠ [] ∧ MptAccepted H reply key p ∧
    MtAccepted H p ∧ p.hash = reply.digest.hash

end

variable {H : Bytes → Hash}

/-! ### One round -/

theorem mptProver_of_no_chunks {p : LedgerDBProof} (h : p.mptChunks = []) :
    mptProver p = .ok { value := p.mptvalue } := by
  rw [mptProver, h, appendProofs]

/-- A round lets the chunks pass when there are none or when they are accepted. -/
theorem checkMpt_eq_true_iff (reply : Reply) (keys : List Bytes) (i : ℕ) (p : LedgerDBProof) :
    checkMpt H (Hash.fromBase32 reply.digest.mptHash) keys i p = .ok true ↔
      (p.mptChunks ≠ [] → ∃ key, keys[i]? = some key ∧ MptAccepted H reply key p) := by
  unfold checkMpt MptAccepted
  by_cases hchunks : p.mptChunks = []
  · rw [mptProver_of_no_chunks hchunks, ok_bind, hchunks]
    simp [pure, Except.pure]
  · have hlen : p.mptChunks.length > 0 := List.length_pos_iff.mpr hchunks
    simp only [hlen, if_true, ne_eq, hchunks, not_false_eq_true, forall_const]
    cases hprover : mptProver p with
    | error e => simp [error_bind]
    | ok prover =>
      rw [ok_bind, at?]
      cases hkey : keys[i]? with
      | none => simp [error_bind]
      | some key => simp [ok_bind]

/-- A round keeps `PASS` when its proof is not rejected. -/
theorem checkProof_eq_pass_iff (reply : Reply) (keys : List Bytes) (i : ℕ) (p : LedgerDBProof)
    (res : VerifyStatus) :
    checkProof H (Hash.fromBase32 reply.digest.mptHash) keys i p res = .ok .pass ↔
      res = .pass ∧ ¬ Rejected H reply keys i p := by
  have hmpt := checkMpt_eq_true_iff (H := H) reply keys i p
  have hrej : ¬ Rejected H reply keys i p ↔
      checkMpt H (Hash.fromBase32 reply.digest.mptHash) keys i p = .ok true ∧
        (mtProver p).verify H = .ok true := by
    rw [hmpt, Rejected, MtAccepted, not_or, not_and_not_right, not_not]
  rw [hrej, checkProof]
  cases checkMpt H (Hash.fromBase32 reply.digest.mptHash) keys i p with
  | error e => simp [error_bind]
  | ok mptOk =>
    rw [ok_bind]
    cases (mtProver p).verify H with
    | error e => simp
    | ok mtOk => cases mptOk <;> cases mtOk <;> cases res <;> simp [ok_bind, pure, Except.pure]

/-! ### The loop -/

/-- **The loop** ends with `PASS` when it started with it and no proof is rejected. -/
theorem checkProofs_eq_pass_iff (reply : Reply) (keys : List Bytes) (i : ℕ)
    (proofs : List LedgerDBProof) (res : VerifyStatus) :
    checkProofs H (Hash.fromBase32 reply.digest.mptHash) keys i proofs res = .ok .pass ↔
      res = .pass ∧ ∀ j p, proofs[j]? = some p → ¬ Rejected H reply keys (i + j) p := by
  induction proofs generalizing i res with
  | nil => simp [checkProofs]
  | cons p proofs ih =>
    rw [checkProofs]
    have hround := checkProof_eq_pass_iff (H := H) reply keys i p
    constructor
    · intro h
      cases hp : checkProof H (Hash.fromBase32 reply.digest.mptHash) keys i p res with
      | error e =>
        rw [hp, error_bind] at h
        cases h
      | ok res' =>
        rw [hp, ok_bind, ih] at h
        obtain ⟨rfl, hrest⟩ := h
        obtain ⟨hres, hfirst⟩ := (hround res).mp hp
        refine ⟨hres, fun j q hq => ?_⟩
        cases j with
        | zero =>
          obtain rfl := Option.some.inj hq
          exact hfirst
        | succ j =>
          rw [show i + (j + 1) = i + 1 + j by omega]
          exact hrest j q hq
    · rintro ⟨rfl, hall⟩
      have hp := (hround .pass).mpr ⟨rfl, hall 0 p rfl⟩
      rw [hp, ok_bind, ih]
      refine ⟨rfl, fun j q hq => ?_⟩
      rw [show i + 1 + j = i + (j + 1) by omega]
      exact hall (j + 1) q hq

/-! ### The callback -/

/-- **Completion with `PASS`**: a promise waits, and no proof is rejected. -/
theorem getProofCallback_pass_iff (client : ShardClient) (uid : ℕ) (keys : List Bytes)
    (reply : Reply) :
    (∃ client' done, getProofCallback H client uid keys reply = .ok (client', some done) ∧
        done.verify = .pass) ↔
      (∃ w, client.verifyPromise.lookup uid = some (some w)) ∧
        ∀ i p, reply.proof[i]? = some p → ¬ Rejected H reply keys i p := by
  have hloop := checkProofs_eq_pass_iff (H := H) reply keys 0 reply.proof .pass
  simp only [Nat.zero_add, true_and] at hloop
  rw [getProofCallback]
  cases hw : client.verifyPromise.lookup uid with
  | none => simp
  | some promise =>
    cases promise with
    | none => simp
    | some w =>
      rw [← hloop]
      dsimp only
      cases checkProofs H (Hash.fromBase32 reply.digest.mptHash) keys 0 reply.proof .pass with
      | error e => simp
      | ok res => simp [ok_bind, pure, Except.pure]

/-- **When `PASS` is sound**: the promise is completed with `PASS` only if the reply proves every
requested key, exactly when no promise waits, a proof that was sent is rejected, or there are
enough proofs and those for the requested keys have chunks and name the root of the digest. -/
theorem getProofCallback_sound_iff (H : Bytes → Hash) (client : ShardClient) (uid : ℕ)
    (keys : List Bytes) (reply : Reply) :
    (∀ client' done, getProofCallback H client uid keys reply = .ok (client', some done) →
        done.verify = .pass → ∀ i key, keys[i]? = some key → Proven H reply key i) ↔
      (¬ ∃ w, client.verifyPromise.lookup uid = some (some w)) ∨
      (∃ i p, reply.proof[i]? = some p ∧ Rejected H reply keys i p) ∨
      (keys.length ≤ reply.proof.length ∧ ∀ i p, i < keys.length → reply.proof[i]? = some p →
        p.mptChunks ≠ [] ∧ p.hash = reply.digest.hash) := by
  have hpass := getProofCallback_pass_iff (H := H) client uid keys reply
  constructor
  · intro h
    by_cases hwait : ∃ w, client.verifyPromise.lookup uid = some (some w)
    · by_cases hrej : ∃ i p, reply.proof[i]? = some p ∧ Rejected H reply keys i p
      · exact Or.inr (Or.inl hrej)
      · have hnone : ∀ i p, reply.proof[i]? = some p → ¬ Rejected H reply keys i p :=
          fun i p hp hr => hrej ⟨i, p, hp, hr⟩
        obtain ⟨client', done, hrun, hverify⟩ := hpass.mpr ⟨hwait, hnone⟩
        have hproven := h client' done hrun hverify
        refine Or.inr (Or.inr ⟨?_, fun i p hi hp => ?_⟩)
        · -- the last key has a proof, so there are as many proofs as keys
          by_contra hlt
          obtain ⟨p, hp, -⟩ := hproven reply.proof.length
            (keys.get ⟨reply.proof.length, by omega⟩) (List.getElem?_eq_getElem _)
          rw [List.getElem?_eq_none le_rfl] at hp
          cases hp
        · obtain ⟨q, hq, hchunks, -, -, hhash⟩ := hproven i keys[i] (List.getElem?_eq_getElem hi)
          rw [hp] at hq
          obtain rfl := Option.some.inj hq
          exact ⟨hchunks, hhash⟩
    · exact Or.inl hwait
  · intro h client' done hrun hverify i key hkey
    obtain ⟨hwait, hnone⟩ := hpass.mp ⟨client', done, hrun, hverify⟩
    obtain hno | ⟨j, p, hp, hrej⟩ | ⟨hlen, hproofs⟩ := h
    · exact absurd hwait hno
    · exact absurd hrej (hnone j p hp)
    · have hi : i < keys.length := (List.getElem?_eq_some_iff.mp hkey).1
      have hp : reply.proof[i]? = some (reply.proof.get ⟨i, by omega⟩) :=
        List.getElem?_eq_getElem _
      obtain ⟨hchunks, hhash⟩ := hproofs i _ hi hp
      have haccept := hnone i _ hp
      rw [Rejected, not_or, not_and_not_right, not_not] at haccept
      obtain ⟨key', hkey', hmpt⟩ := haccept.1 hchunks
      rw [hkey] at hkey'
      obtain rfl := Option.some.inj hkey'
      exact ⟨_, hp, hchunks, hmpt, haccept.2, hhash⟩

/-- A reply without proofs passes for any key. -/
theorem getProofCallback_unsound :
    ¬ ∀ client' done, getProofCallback (Hash.ofTable []) { verifyPromise := [(0, some 7)] } 0
        [str "a"] {} = .ok (client', some done) → done.verify = .pass →
      ∀ i key, [str "a"][i]? = some key → Proven (Hash.ofTable []) {} key i := by
  intro h
  obtain ⟨p, hp, -⟩ := h _ ⟨7, 0, .pass⟩ rfl rfl 0 (str "a") rfl
  cases hp

end LedgerDatabase.Distributed.ShardClient
