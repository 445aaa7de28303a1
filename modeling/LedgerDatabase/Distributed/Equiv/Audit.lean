import LedgerDatabase.Common.Equiv.Bytes
import LedgerDatabase.Distributed.Audit

/-!
# The verdict of `Client::Audit`

`Client::Audit` looks at the status of the replies and counts the promises; whether an audit has
passed does not matter to it, except that `UNVERIFIED` is not counted.  So what it returns is honest
when the replies with `REPLY_OK` are those of the shards that pass, and these are numbered as they
are counted (`audit_honest_iff`).
-/

namespace LedgerDatabase.Distributed.AuditSeqs

open AuditClient SortedMap

variable {H : Bytes → Hash} {build : Build} {replies : ℕ → AuditReply} {clients : ℕ → AuditClient}
  {res : ℕ → VerifyStatus} {seqs : AuditSeqs} {e : ℕ × UInt64}

/-! ### What is audited -/

variable (H build replies clients)

/-- The result of `Auditor::Audit` for a shard, where it is called. -/
def judged (e : ℕ × UInt64) : Option Bool :=
  match judge H build e.2 (replies e.1) (clients e.1).db with
  | .ok r => r.1
  | .error _ => none

/-- `Auditor::Audit` has returned `true` for a shard. -/
def Passed (shard : ℕ) (seq : UInt64) : Prop :=
  judged H build replies clients (shard, seq) = some true

instance (shard : ℕ) (seq : UInt64) : Decidable (Passed H build replies clients shard seq) :=
  inferInstanceAs (Decidable (_ = _))

/-- The claims that a result makes: it is `true` only if every shard has passed, and the numbers of
the shards that have passed, and no others, are advanced. -/
structure Honest (seqs : AuditSeqs) (result : Bool × AuditSeqs) : Prop where
  verdict : result.1 = true → ∀ e ∈ seqs.entries, Passed H build replies clients e.1 e.2
  advanced : ∀ shard, result.2.lookup shard =
    (seqs.lookup shard).map fun seq =>
      if Passed H build replies clients shard seq then seq + 1 else seq

/-- The shard at place `n` of the map has replied `REPLY_OK`. -/
def Accepted (seqs : AuditSeqs) (n : ℕ) : Prop :=
  ∃ e, seqs.entries[n]? = some e ∧ (replies e.1).status = replyOk

/-- The replies with `REPLY_OK` reach the number that is asked for, in a build with an auditor, and
their places in the map are the numbers of the shards that pass. -/
structure Consistent (seqs : AuditSeqs) : Prop where
  reached : ∀ e ∈ seqs.entries, (replies e.1).status = replyOk →
    e.2.toNat ≤ sizeOfInt64 (replies e.1).digest.block ∧ build ≠ .amzqldb
  places : ∀ n, Accepted replies seqs n ↔
    ∃ seq, (n, seq) ∈ seqs.entries ∧ Passed H build replies clients n seq

variable {H build replies clients}

/-- Where the auditor runs, it has a result. -/
theorem judged_isSome_iff {r : Option Bool × DB}
    (h : judge H build e.2 (replies e.1) (clients e.1).db = .ok r) :
    (judged H build replies clients e).isSome ↔
      e.2.toNat ≤ sizeOfInt64 (replies e.1).digest.block ∧ build ≠ .amzqldb := by
  have hjudged : judged H build replies clients e = r.1 := by rw [judged, h]
  rw [hjudged]
  rw [judge] at h
  split at h
  case isFalse hlate =>
    obtain rfl := Except.ok.inj h
    simp [hlate]
  case isTrue hreached =>
    rw [and_iff_right hreached]
    cases build with
    | ledgerdb =>
      obtain ⟨auditor, -, h⟩ := bind_eq_ok_iff.mp h
      obtain ⟨⟨passed, db⟩, -, h⟩ := bind_eq_ok_iff.mp h
      obtain rfl := Except.ok.inj h
      simp
    | sqlledger =>
      obtain ⟨⟨passed, n, db⟩, -, h⟩ := bind_eq_ok_iff.mp h
      obtain rfl := Except.ok.inj h
      simp
    | amzqldb =>
      obtain rfl := Except.ok.inj h
      simp

theorem verifyStatus_some_ne {res : VerifyStatus} {b : Bool} :
    verifyStatus res (some b) ≠ .unverified := by
  cases b <;> exact VerifyStatus.noConfusion

/-! ### The promises -/

/-- What the promise for an entry is completed with. -/
def verdictOf (res : ℕ → VerifyStatus) (replies : ℕ → AuditReply) (judged : ℕ × UInt64 → Option Bool)
    (e : ℕ × UInt64) : Verdict :=
  ⟨(replies e.1).status, verifyStatus (res e.1) (judged e)⟩

theorem promises_ok {entries : List (ℕ × UInt64)} {ps : List (Verdict × AuditClient)}
    (h : promises H build res replies clients entries = .ok ps) :
    ∀ e ∈ entries, ∃ r, judge H build e.2 (replies e.1) (clients e.1).db = .ok r := by
  induction entries generalizing ps with
  | nil => exact fun e he => absurd he List.not_mem_nil
  | cons e' entries ih =>
    rw [promises] at h
    obtain ⟨p, hp, h⟩ := bind_eq_ok_iff.mp h
    obtain ⟨ps', hps, -⟩ := bind_eq_ok_iff.mp h
    obtain ⟨r, hr, -⟩ := bind_eq_ok_iff.mp hp
    rw [List.forall_mem_cons]
    exact ⟨⟨r, hr⟩, ih hps⟩

theorem exists_promises (res : ℕ → VerifyStatus) {entries : List (ℕ × UInt64)}
    (h : ∀ e ∈ entries, ∃ r, judge H build e.2 (replies e.1) (clients e.1).db = .ok r) :
    ∃ ps, promises H build res replies clients entries = .ok ps ∧
      ps.map (·.1) = entries.map (verdictOf res replies (judged H build replies clients)) := by
  induction entries with
  | nil => exact ⟨[], rfl, rfl⟩
  | cons e entries ih =>
    rw [List.forall_mem_cons] at h
    obtain ⟨⟨r, hr⟩, hentries⟩ := h
    obtain ⟨ps, hps, hmap⟩ := ih hentries
    have hjudged : judged H build replies clients e = r.1 := by rw [judged, hr]
    rw [promises, auditCallback, hr, hps]
    refine ⟨_, rfl, ?_⟩
    rw [List.map_cons, List.map_cons, hmap, verdictOf, hjudged]

/-- The promise at place `n` makes the loop advance a number. -/
def Counted (ps : List Verdict) (n : ℕ) : Prop :=
  ∃ p, ps[n]? = some p ∧ p.reply = replyOk ∧ p.verify ≠ .unverified

instance (ps : List Verdict) (n : ℕ) : Decidable (Counted ps n) :=
  decidable_of_iff (∃ p ∈ ps[n]?, p.reply = replyOk ∧ p.verify ≠ .unverified) Iff.rfl

theorem counted_cons_succ {p : Verdict} {ps : List Verdict} {n : ℕ} :
    Counted (p :: ps) (n + 1) ↔ Counted ps n := Iff.rfl

theorem counted_cons_zero {p : Verdict} {ps : List Verdict} :
    Counted (p :: ps) 0 ↔ p.reply = replyOk ∧ p.verify ≠ .unverified := by
  simp [Counted]

theorem collect_fst (ps : List Verdict) (n : ℕ) (status : Bool) (seqs : AuditSeqs) :
    (collect n ps (status, seqs)).1 = (status && ps.all fun p => p.reply = replyOk) := by
  induction ps generalizing n status seqs with
  | nil => simp [collect]
  | cons p ps ih =>
    rw [collect]
    split_ifs with hreply hverify
    · rw [ih]
      simp [hreply]
    · rw [ih]
      simp [not_not.mp hreply]
    · rw [ih]
      simp [not_not.mp hreply]

/-- The loop advances the numbers at the places that it counts. -/
theorem lookup_collect (ps : List Verdict) (n : ℕ) (status : Bool) (seqs : AuditSeqs) (shard : ℕ) :
    (collect n ps (status, seqs)).2.lookup shard =
      if n ≤ shard ∧ Counted ps (shard - n) then some ((seqs.lookup shard).getD 0 + 1)
      else seqs.lookup shard := by
  induction ps generalizing n status seqs with
  | nil =>
    rw [collect, if_neg]
    rintro ⟨-, p, hp, -⟩
    cases hp
  | cons p ps ih =>
    -- the head is counted at place `n`, the others behind it
    have hsplit : n ≤ shard ∧ Counted (p :: ps) (shard - n) ↔
        (shard = n ∧ p.reply = replyOk ∧ p.verify ≠ .unverified) ∨
          n + 1 ≤ shard ∧ Counted ps (shard - (n + 1)) := by
      rcases Nat.lt_trichotomy shard n with hlt | rfl | hlt
      · constructor
        · rintro ⟨hle, -⟩
          omega
        · rintro (⟨rfl, -⟩ | ⟨hle, -⟩) <;> omega
      · rw [Nat.sub_self, counted_cons_zero]
        simp
      · obtain ⟨k, rfl⟩ := Nat.exists_eq_add_of_lt hlt
        have hk : n + k + 1 - n = (n + k + 1 - (n + 1)) + 1 := by omega
        rw [hk, counted_cons_succ]
        constructor
        · exact fun h => Or.inr ⟨by omega, h.2⟩
        · rintro (⟨heq, -⟩ | h)
          · omega
          · exact ⟨by omega, h.2⟩
    rw [collect]
    by_cases hcounted : p.reply = replyOk ∧ p.verify ≠ .unverified
    · rw [if_neg (not_not.mpr hcounted.1), if_pos hcounted.2, ih, lookup_assign]
      by_cases hshard : shard = n
      · subst hshard
        rw [if_neg (by omega), if_pos rfl, if_pos (hsplit.mpr (Or.inl ⟨rfl, hcounted⟩))]
      · rw [if_neg hshard]
        have hiff : n ≤ shard ∧ Counted (p :: ps) (shard - n) ↔
            n + 1 ≤ shard ∧ Counted ps (shard - (n + 1)) :=
          hsplit.trans (or_iff_right fun h => hshard h.1)
        rw [if_congr hiff rfl rfl]
    · have hiff : n ≤ shard ∧ Counted (p :: ps) (shard - n) ↔
          n + 1 ≤ shard ∧ Counted ps (shard - (n + 1)) :=
        hsplit.trans (or_iff_right fun h => hcounted h.2)
      rw [if_congr hiff rfl rfl]
      by_cases hreply : p.reply ≠ replyOk
      · rw [if_pos hreply, ih]
      · rw [if_neg hreply, if_neg fun hverify => hcounted ⟨not_not.mp hreply, hverify⟩, ih]

/-! ### The verdict -/

/-- A list that has every number below its length has no other numbers. -/
theorem lt_length_of_mem {xs : List ℕ} (h : ∀ n < xs.length, n ∈ xs) {x : ℕ} (hx : x ∈ xs) :
    x < xs.length := by
  have hsub : List.range xs.length ⊆ xs := fun n hn => h n (List.mem_range.mp hn)
  have hperm := (List.subperm_of_subset List.nodup_range hsub).perm_of_length_le (by simp)
  exact List.mem_range.mp (hperm.mem_iff.mpr hx)

/-- The numbers that are advanced are those of the shards that pass. -/
theorem advanced_iff {counted : ℕ → Prop} [DecidablePred counted] :
    (∀ shard, (if counted shard then some ((seqs.lookup shard).getD 0 + 1) else seqs.lookup shard) =
      (seqs.lookup shard).map fun seq =>
        if Passed H build replies clients shard seq then seq + 1 else seq) ↔
    ∀ shard, counted shard ↔
      ∃ seq, (shard, seq) ∈ seqs.entries ∧ Passed H build replies clients shard seq := by
  apply forall_congr'
  intro shard
  have hmem : ∀ seq, (shard, seq) ∈ seqs.entries ↔ seqs.lookup shard = some seq := fun seq =>
    lookup_eq_some.symm
  simp only [hmem]
  cases seqs.lookup shard with
  | none => simp
  | some seq =>
    have hne : seq + 1 ≠ seq := by simp
    by_cases hcounted : counted shard
    · by_cases hpassed : Passed H build replies clients shard seq <;> simp [hcounted, hpassed]
    · by_cases hpassed : Passed H build replies clients shard seq <;> simp [hcounted, hpassed]

/-- When all shards reply `REPLY_OK`, their numbers are their places, and all pass. -/
theorem Consistent.all_passed (h : Consistent H build replies clients seqs)
    (hall : ∀ e ∈ seqs.entries, (replies e.1).status = replyOk) :
    ∀ e ∈ seqs.entries, Passed H build replies clients e.1 e.2 := by
  have hplace : ∀ n < seqs.keys.length, ∃ seq, (n, seq) ∈ seqs.entries ∧
      Passed H build replies clients n seq := by
    intro n hn
    have hn' : n < seqs.entries.length := by rwa [keys, List.length_map] at hn
    exact (h.places n).mp ⟨seqs.entries[n], List.getElem?_eq_getElem hn', hall _
      (List.getElem_mem hn')⟩
  intro e he
  have hkey : e.1 ∈ seqs.keys := List.mem_map_of_mem he
  have hlt : e.1 < seqs.keys.length := by
    apply lt_length_of_mem _ hkey
    intro n hn
    obtain ⟨seq, hseq, -⟩ := hplace n hn
    exact List.mem_map_of_mem hseq
  obtain ⟨seq, hseq, hpassed⟩ := hplace e.1 hlt
  -- the shard has one number
  rwa [unique hseq he] at hpassed

/-- **`Client::Audit` is honest** — it returns `true` only if every audit has passed, and advances
exactly the numbers of the shards that pass, whatever the variable of the callback holds before it is
set — if and only if the replies are consistent. -/
theorem audit_honest_iff {nshards : ℕ} {result : Bool × AuditSeqs}
    (h : audit H build nshards res replies clients seqs = .ok result) :
    (∀ res result, audit H build nshards res replies clients seqs = .ok result →
      Honest H build replies clients (seqs.fill nshards) result) ↔
    Consistent H build replies clients (seqs.fill nshards) := by
  obtain ⟨ps, hps, -⟩ := bind_eq_ok_iff.mp h
  have hjudge := promises_ok hps
  generalize hfill : seqs.fill nshards = filled at hps hjudge ⊢
  let verdicts res := filled.entries.map (verdictOf res replies (judged H build replies clients))
  have haudit : ∀ res, audit H build nshards res replies clients seqs =
      .ok (collect 0 (verdicts res) (true, filled)) := by
    intro res
    obtain ⟨ps', hps', hmap⟩ := exists_promises res hjudge
    rw [audit, hfill]
    simp only [hps', ok_bind, hmap]
    rfl
  have hcounted : ∀ res n, Counted (verdicts res) n ↔ ∃ e, filled.entries[n]? = some e ∧
      (replies e.1).status = replyOk ∧
      verifyStatus (res e.1) (judged H build replies clients e) ≠ .unverified := by
    intro res n
    simp only [verdicts, Counted, List.getElem?_map, Option.map_eq_some_iff, verdictOf]
    constructor
    · rintro ⟨p, ⟨e, he, rfl⟩, hp⟩
      exact ⟨e, he, hp⟩
    · rintro ⟨e, he, hp⟩
      exact ⟨_, ⟨e, he, rfl⟩, hp⟩
  have hadvanced : ∀ res, (∀ shard, (collect 0 (verdicts res) (true, filled)).2.lookup shard =
      (filled.lookup shard).map fun seq =>
        if Passed H build replies clients shard seq then seq + 1 else seq) ↔
      ∀ shard, Counted (verdicts res) shard ↔
        ∃ seq, (shard, seq) ∈ filled.entries ∧ Passed H build replies clients shard seq := by
    intro res
    rw [← advanced_iff]
    simp only [lookup_collect, Nat.zero_le, true_and, Nat.sub_zero]
  constructor
  · intro hhonest
    have hpassed := fun res => (hadvanced res).mp (hhonest res _ (haudit res)).advanced
    have hreached : ∀ (n : ℕ) e, filled.entries[n]? = some e → (replies e.1).status = replyOk →
        (judged H build replies clients e).isSome := by
      intro n e he hstatus
      rw [Option.isSome_iff_ne_none]
      intro hnone
      -- the variable may hold a counted status, or `UNVERIFIED`
      have hyes : Counted (verdicts fun _ => .pass) n := by
        rw [hcounted]
        exact ⟨e, he, hstatus, by rw [hnone]; decide⟩
      have hno : ¬ Counted (verdicts fun _ => .unverified) n := by
        rw [hcounted]
        rintro ⟨e', he', -, hverify⟩
        obtain rfl := Option.some.inj (he.symm.trans he')
        rw [hnone] at hverify
        exact hverify rfl
      exact hno ((hpassed _ n).mpr ((hpassed _ n).mp hyes))
    constructor
    · intro e he hstatus
      obtain ⟨n, hn⟩ := List.mem_iff_getElem?.mp he
      obtain ⟨r, hr⟩ := hjudge e he
      exact (judged_isSome_iff hr).mp (hreached n e hn hstatus)
    · intro n
      rw [← hpassed (fun _ => .pass), hcounted]
      apply exists_congr
      intro e
      constructor
      · rintro ⟨he, hstatus⟩
        obtain ⟨b, hb⟩ := Option.isSome_iff_exists.mp (hreached n e he hstatus)
        exact ⟨he, hstatus, by rw [hb]; exact verifyStatus_some_ne⟩
      · rintro ⟨he, hstatus, -⟩
        exact ⟨he, hstatus⟩
  · intro hcons res result hresult
    rw [haudit] at hresult
    obtain rfl := Except.ok.inj hresult
    have haccepted : ∀ n, Counted (verdicts res) n ↔ Accepted replies filled n := by
      intro n
      rw [hcounted]
      apply exists_congr
      intro e
      constructor
      · rintro ⟨he, hstatus, -⟩
        exact ⟨he, hstatus⟩
      · rintro ⟨he, hstatus⟩
        have hmem := List.mem_of_getElem? he
        obtain ⟨r, hr⟩ := hjudge e hmem
        obtain ⟨b, hb⟩ := Option.isSome_iff_exists.mp
          ((judged_isSome_iff hr).mpr (hcons.reached e hmem hstatus))
        exact ⟨he, hstatus, by rw [hb]; exact verifyStatus_some_ne⟩
    constructor
    · intro htrue
      apply hcons.all_passed
      rw [collect_fst, Bool.true_and, List.all_eq_true] at htrue
      intro e he
      exact of_decide_eq_true (htrue _ (List.mem_map_of_mem he))
    · rw [hadvanced]
      exact fun shard => (haccepted shard).trans (hcons.places shard)

/-- One shard, which is audited from the start. -/
def oneShard : AuditSeqs := SortedMap.empty.emplace 0 0

theorem audit_honest_empty : Honest (Hash.ofTable []) .sqlledger (fun _ => {}) (fun _ => {}) oneShard
    (true, SortedMap.empty.emplace 0 1) := by
  have haudit : audit (Hash.ofTable []) .sqlledger 1 (fun _ => .pass) (fun _ => {}) (fun _ => {})
      .empty = .ok (true, SortedMap.empty.emplace 0 1) := by decide +kernel
  have hpassed : Passed (Hash.ofTable []) .sqlledger (fun _ => {}) (fun _ => {}) 0 0 := by
    decide +kernel
  refine (audit_honest_iff haudit).mpr ⟨?_, ?_⟩ _ _ haudit
  · intro e he hstatus
    obtain rfl : e = (0, 0) := List.mem_singleton.mp he
    decide
  · intro n
    constructor
    · rintro ⟨e, he, hstatus⟩
      cases n with
      | zero => exact ⟨0, List.mem_singleton_self _, hpassed⟩
      | succ n => cases he
    · rintro ⟨seq, hseq, -⟩
      obtain rfl : n = 0 := congrArg Prod.fst (List.mem_singleton.mp hseq)
      exact ⟨(0, 0), rfl, rfl⟩

/-- A reply whose commit does not have the hash that the reply states. -/
def badReply : AuditReply := { laudit := { commits := [str "c"] } }

/-- The audit of the shard fails, and `Client::Audit` returns `true` and goes on to the next number. -/
theorem not_audit_honest :
    audit (Hash.ofTable []) .ledgerdb 1 (fun _ => .pass) (fun _ => badReply) (fun _ => {}) oneShard =
      .ok (true, SortedMap.empty.emplace 0 1) ∧
    judged (Hash.ofTable []) .ledgerdb (fun _ => badReply) (fun _ => {}) (0, 0) = some false ∧
    ¬ Honest (Hash.ofTable []) .ledgerdb (fun _ => badReply) (fun _ => {}) oneShard
      (true, SortedMap.empty.emplace 0 1) := by
  have hjudged : judged (Hash.ofTable []) .ledgerdb (fun _ => badReply) (fun _ => {}) (0, 0) =
      some false := by decide +kernel
  refine ⟨by decide +kernel, hjudged, fun hhonest => ?_⟩
  have hpassed := hhonest.verdict rfl (0, 0) (List.mem_singleton_self _)
  rw [Passed, hjudged] at hpassed
  cases hpassed

end LedgerDatabase.Distributed.AuditSeqs
