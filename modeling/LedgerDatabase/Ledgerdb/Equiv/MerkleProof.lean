import LedgerDatabase.Ledgerdb.Equiv.MerkleTree

/-!
# Correctness of Merkle proofs

`getProof_runIn`: whoever knows the stored nodes of a commit (`KnowsTree`) gets from `getProof` the
leaf, the root and siblings that `verify` accepts.  The loop climbs one level a round: from the
node `ptr` of level `l` the sibling leads to the node `ptr / 2` of level `l + 1`
(`sibling_runIn`), up to the root (`siblings_runIn`).

`updates` is a run of commits on an empty store; `getProof_updates` puts the results together: a
proof made for any commit of a run, at its end, verifies against the root returned then.
-/

namespace LedgerDatabase

theorem readString_runIn {know : Query → Option (Option Bytes)} {key val : Bytes}
    (h : know (.string key) = some (some val)) : (readString key).runIn know = some (.ok val) :=
  Ask.runIn_query_bind know _ h

namespace Ledgerdb.MerkleTree

open PairTree

variable (H : Bytes → Hash)

/-- The stored nodes of commit `c` over the leaves `xs` are known. -/
def KnowsTree (know : Query → Option (Option Bytes)) (xs : List Hash) (c : ℕ) : Prop :=
  ∀ l j h, l ≤ height xs → (hashLevel H l xs)[j]? = some h →
    know (.string (storeKey xs.length c l j)) = some (some h.toBase32)

theorem length_toBase32_pos (h : Hash) : 0 < h.toBase32.length := by
  rw [Hash.length_toBase32]
  decide

/-! ### One round -/

section Sibling

variable {H} {know : Query → Option (Option Bytes)} {xs : List Hash} {c l ptr : ℕ} {v : Hash}

/-- A node without a right neighbour leads to its parent. -/
theorem climb_last (hv : (hashLevel H l xs)[ptr]? = some v) (heven : ptr % 2 = 0)
    (hlast : (hashLevel H l xs).length ≤ ptr + 1) :
    (hashLevel H (l + 1) xs)[ptr / 2]? = some (Proof.climb H v [] 1) := by
  have hptr : 2 * (ptr / 2) = ptr := by omega
  have hlt := (List.getElem?_eq_some_iff.mp hv).1
  rw [hashLevel_succ]
  exact getElem?_pairUp_one _ _ (by rw [hptr]; exact hv) (by omega)

/-- A left child with its right neighbour does. -/
theorem climb_right {w : Hash} (hv : (hashLevel H l xs)[ptr]? = some v) (heven : ptr % 2 = 0)
    (hw : (hashLevel H l xs)[ptr + 1]? = some w) :
    (hashLevel H (l + 1) xs)[ptr / 2]? = some (Proof.climb H v w.toBase32 1) := by
  have hptr : 2 * (ptr / 2) = ptr := by omega
  rw [hashLevel_succ, getElem?_pairUp_two _ _ (by rw [hptr]; exact hv) (by rw [hptr]; exact hw),
    Proof.climb, if_neg (by omega), if_pos (length_toBase32_pos w), Hash.fromBase32_toBase32]

/-- A right child with its left neighbour does. -/
theorem climb_left {w : Hash} (hv : (hashLevel H l xs)[ptr]? = some v) (hodd : ptr % 2 = 1)
    (hw : (hashLevel H l xs)[ptr - 1]? = some w) :
    (hashLevel H (l + 1) xs)[ptr / 2]? = some (Proof.climb H v w.toBase32 0) := by
  have hptr : 2 * (ptr / 2) = ptr - 1 := by omega
  have hptr' : 2 * (ptr / 2) + 1 = ptr := by omega
  rw [hashLevel_succ, getElem?_pairUp_two _ _ (by rw [hptr]; exact hw) (by rw [hptr']; exact hv),
    Proof.climb, if_pos rfl, Hash.fromBase32_toBase32]

/-- On the right edge there is no sibling, and the parent has one child. -/
theorem sibling_runIn_last (hv : (hashLevel H l xs)[ptr]? = some v) (heven : ptr % 2 = 0)
    (hlast : ptr = (xs.length - 1) / 2 ^ l) (complete : Bool) :
    (sibling (toDecimal c) l ptr ((xs.length - 1) / 2 ^ l) complete).runIn know
        = some (.ok ([], 1)) ∧
      (hashLevel H (l + 1) xs)[ptr / 2]? = some (Proof.climb H v [] 1) := by
  constructor
  · rw [sibling, if_pos heven, if_pos hlast]
    rfl
  · have hlt := (List.getElem?_eq_some_iff.mp hv).1
    have hm : 0 < xs.length := by
      have := (lt_length_hashLevel H l ptr xs).mp hlt
      omega
    have hlen := length_hashLevel H hm l
    exact climb_last hv heven (by omega)

/-- A left child finds its right neighbour. -/
theorem sibling_runIn_right (hknow : KnowsTree H know xs c) (hl : l ≤ height xs)
    (hv : (hashLevel H l xs)[ptr]? = some v) (heven : ptr % 2 = 0)
    (hlast : ptr ≠ (xs.length - 1) / 2 ^ l) :
    ∃ w : Hash, (sibling (toDecimal c) l ptr ((xs.length - 1) / 2 ^ l)
          (decide (2 ^ (l + 1) ∣ xs.length))).runIn know = some (.ok (w.toBase32, 1)) ∧
      (hashLevel H (l + 1) xs)[ptr / 2]? = some (Proof.climb H v w.toBase32 1) := by
  have hlt := (List.getElem?_eq_some_iff.mp hv).1
  have hm : 0 < xs.length := by
    have := (lt_length_hashLevel H l ptr xs).mp hlt
    omega
  have hlen := length_hashLevel H hm l
  have hlt' : ptr + 1 < (hashLevel H l xs).length := by omega
  have hw : (hashLevel H l xs)[ptr + 1]? = some (hashLevel H l xs)[ptr + 1] :=
    List.getElem?_eq_getElem hlt'
  generalize (hashLevel H l xs)[ptr + 1] = w at hw
  refine ⟨w, ?_, ?_⟩
  · have hkey : (if (ptr + 1 == (xs.length - 1) / 2 ^ l && 0 < l
          && !decide (2 ^ (l + 1) ∣ xs.length)) = true then
            withCommit (nodeKey l (ptr + 1)) (toDecimal c) else nodeKey l (ptr + 1))
        = storeKey xs.length c l (ptr + 1) := by
      have hlo := (lt_length_hashLevel H l (ptr + 1) xs).mp hlt'
      rcases Nat.eq_zero_or_pos l with rfl | hlpos
      · rw [storeKey_of_full (Or.inl rfl)]
        simp
      by_cases heq : ptr + 1 = (xs.length - 1) / 2 ^ l
      · -- the neighbour is the last node: it is full when `2^(l+1)` divides the leaves
        have hover := lt_length_hashLevel H l (ptr + 1 + 1) xs
        have hfull := full_iff_dvd hlo (by omega : xs.length ≤ (ptr + 1 + 1) * 2 ^ l)
        have hdvd : 2 ^ (l + 1) ∣ xs.length ↔ 2 ^ l ∣ xs.length := by
          rw [two_pow_succ_dvd_iff hm, ← heq]
          omega
        by_cases hd : 2 ^ l ∣ xs.length
        · rw [storeKey_of_full (Or.inr (hfull.mpr hd))]
          simp [hdvd.mpr hd]
        · rw [storeKey_of_not_full (by omega) (Nat.lt_of_not_le fun hle => hd (hfull.mp hle))]
          simp [heq, hlpos, mt hdvd.mp hd]
      · have hlt'' := (lt_length_hashLevel H l (ptr + 1 + 1) xs).mp (by omega)
        rw [storeKey_of_full (Or.inr hlt''.le)]
        simp [heq]
    rw [sibling, if_pos heven, if_neg hlast]
    simp only [hkey]
    rw [Ask.runIn_bind_ok know _ (readString_runIn (hknow l (ptr + 1) w hl hw))]
    rfl
  · exact climb_right hv heven hw

/-- A right child finds its left neighbour. -/
theorem sibling_runIn_left (hknow : KnowsTree H know xs c) (hl : l ≤ height xs)
    (hv : (hashLevel H l xs)[ptr]? = some v) (hodd : ptr % 2 = 1) (last : ℕ) (complete : Bool) :
    ∃ w : Hash, (sibling (toDecimal c) l ptr last complete).runIn know
        = some (.ok (w.toBase32, 0)) ∧
      (hashLevel H (l + 1) xs)[ptr / 2]? = some (Proof.climb H v w.toBase32 0) := by
  have hlt := (List.getElem?_eq_some_iff.mp hv).1
  have hlt' : ptr - 1 < (hashLevel H l xs).length := by omega
  have hw : (hashLevel H l xs)[ptr - 1]? = some (hashLevel H l xs)[ptr - 1] :=
    List.getElem?_eq_getElem hlt'
  generalize (hashLevel H l xs)[ptr - 1] = w at hw
  refine ⟨w, ?_, ?_⟩
  · have hfull : (ptr - 1 + 1) * 2 ^ l ≤ xs.length := by
      rw [Nat.sub_add_cancel (by omega)]
      exact ((lt_length_hashLevel H l ptr xs).mp hlt).le
    have hget := hknow l (ptr - 1) w hl hw
    rw [storeKey_of_full (Or.inr hfull)] at hget
    rw [sibling, if_neg (by omega), Ask.runIn_bind_ok know _ (readString_runIn hget)]
    rfl
  · exact climb_left hv hodd hw

/-- **One round**: the sibling of a node leads to its parent. -/
theorem sibling_runIn (hknow : KnowsTree H know xs c) (hl : l ≤ height xs)
    (hv : (hashLevel H l xs)[ptr]? = some v) :
    ∃ s p, (sibling (toDecimal c) l ptr ((xs.length - 1) / 2 ^ l)
          (decide (2 ^ (l + 1) ∣ xs.length))).runIn know = some (.ok (s, p)) ∧
      (hashLevel H (l + 1) xs)[ptr / 2]? = some (Proof.climb H v s p) := by
  rcases Nat.mod_two_eq_zero_or_one ptr with heven | hodd
  · by_cases hlast : ptr = (xs.length - 1) / 2 ^ l
    · exact ⟨[], 1, sibling_runIn_last hv heven hlast _⟩
    · obtain ⟨w, h⟩ := sibling_runIn_right hknow hl hv heven hlast
      exact ⟨_, 1, h⟩
  · obtain ⟨w, h⟩ := sibling_runIn_left hknow hl hv hodd _ _
    exact ⟨_, 0, h⟩

end Sibling

/-! ### All rounds -/

variable {H}

/-- The rounds from a node of level `l` on end at the root. -/
theorem siblings_runIn {know : Query → Option (Option Bytes)} {xs : List Hash} {c : ℕ}
    (hknow : KnowsTree H know xs c) (hne : xs ≠ []) :
    ∀ (rounds l ptr : ℕ) (v : Hash), l + rounds = height xs → (hashLevel H l xs)[ptr]? = some v →
      ∃ steps, (siblings (toDecimal c) rounds l ptr ((xs.length - 1) / 2 ^ l)
            (decide (2 ^ (l + 1) ∣ xs.length))).runIn know = some (.ok steps) ∧
        Proof.climbAll H v (steps.map (·.1)) (steps.map (·.2)) = .ok (merkleRoot H xs) := by
  have hm : 0 < xs.length := List.length_pos_iff.mpr hne
  intro rounds
  induction rounds with
  | zero =>
    intro l ptr v hl hv
    obtain rfl : l = height xs := by omega
    refine ⟨[], rfl, ?_⟩
    rw [hashLevel_height H hne, List.getElem?_singleton] at hv
    split_ifs at hv
    obtain rfl := Option.some.inj hv
    rfl
  | succ rounds ih =>
    intro l ptr v hl hv
    obtain ⟨s, p, hstep, hup⟩ := sibling_runIn hknow (by omega) hv
    obtain ⟨steps, hrest, hclimb⟩ := ih (l + 1) (ptr / 2) _ (by omega) hup
    have hlast : (xs.length - 1) / 2 ^ l / 2 = (xs.length - 1) / 2 ^ (l + 1) := by
      rw [pow_succ, Nat.div_div_eq_div_mul]
    have hcomplete : (decide (2 ^ (l + 1) ∣ xs.length)
        && (xs.length - 1) / 2 ^ l / 2 % 2 == 1) = decide (2 ^ (l + 1 + 1) ∣ xs.length) := by
      rw [hlast, Bool.eq_iff_iff, decide_eq_true_eq, two_pow_succ_dvd_iff (l := l + 1) hm]
      simp
    refine ⟨(s, p) :: steps, ?_, hclimb⟩
    rw [siblings, Ask.runIn_bind_ok know _ hstep, hcomplete, hlast,
      Ask.runIn_bind_ok know _ hrest]
    rfl

/-! ### `getProof` -/

/-- The level is read back from the key of the root. -/
theorem level_of_storeKey (m c l j : ℕ) :
    substr (storeKey m c l j) 2 (subSize (find (storeKey m c l j) 45) 2) = .ok (toDecimal l) := by
  obtain ⟨rest, hkey⟩ : ∃ rest, storeKey m c l j = str "mt" ++ toDecimal l ++ 45 :: rest := by
    unfold storeKey
    generalize keyCommit m c l j = oc
    cases oc with
    | none => exact ⟨toDecimal j, by simp [keyOf, nodeKey, show str "-" = [45] from rfl]⟩
    | some c => exact ⟨_, by simp [keyOf, withCommit, nodeKey, show str "-" = [45] from rfl]; rfl⟩
  have hnot : (45 : UInt8) ∉ str "mt" ++ toDecimal l := by
    rw [List.mem_append, not_or]
    exact ⟨by decide, not_mem_toDecimal (by decide) l⟩
  have hmt : (str "mt").length = 2 := rfl
  have hfind : find (storeKey m c l j) 45 = 2 + (toDecimal l).length := by
    rw [find, hkey, if_pos (by simp), List.idxOf_append_of_notMem hnot, List.idxOf_cons_self,
      List.length_append, hmt, Nat.add_zero]
  rw [hfind, subSize, if_pos (by omega), Nat.add_sub_cancel_left, substr, hkey]
  have hlen : ¬ (str "mt" ++ toDecimal l ++ 45 :: rest).length < 2 := by
    simp only [List.length_append, hmt]
    omega
  rw [if_neg hlen, List.append_assoc, List.drop_left' hmt, List.take_left]

/-- **`getProof` is complete**: for a leaf `seq` of a known tree it returns the leaf, the root of
the tree and a proof that verifies. -/
theorem getProof_runIn {know : Query → Option (Option Bytes)} {xs : List Hash} {c seq : ℕ}
    (hknow : KnowsTree H know xs c) {leaf : Hash} (hleaf : xs[seq]? = some leaf) :
    ∃ p : Proof, (getProof (toDecimal c) (rootOf H xs c).rootKey (xs.length - 1) seq).runIn know
        = some (.ok p) ∧ p.value = leaf.toBase32 ∧ p.digest = (rootOf H xs c).rootHash ∧
      p.verify H = .ok true := by
  have hlt : seq < xs.length := (List.getElem?_eq_some_iff.mp hleaf).1
  have hne : xs ≠ [] := List.length_pos_iff.mp (by omega)
  have hroot := hknow (height xs) 0 (merkleRoot H xs) le_rfl (by rw [hashLevel_height H hne]; rfl)
  have hvalue := hknow 0 seq leaf (by omega) hleaf
  rw [storeKey_of_full (Or.inl rfl)] at hvalue
  obtain ⟨steps, hsteps, hclimb⟩ := siblings_runIn hknow hne (height xs) 0 seq leaf (by omega) hleaf
  have hcomplete : decide (2 ^ (0 + 1) ∣ xs.length) = ((xs.length - 1) % 2 == 1) := by
    rw [Bool.eq_iff_iff, decide_eq_true_eq, two_pow_succ_dvd_iff (by omega)]
    simp
  rw [hcomplete, pow_zero, Nat.div_one] at hsteps
  refine ⟨⟨(merkleRoot H xs).toBase32, leaf.toBase32, steps.map (·.1), steps.map (·.2)⟩,
    ?_, rfl, rfl, ?_⟩
  · rw [getProof, rootOf, Ask.runIn_bind_ok know _ (readString_runIn hroot),
      Ask.runIn_bind_ok know _ (readString_runIn hvalue)]
    simp only [level_of_storeKey]
    rw [Ask.runIn_bind_ok know _ (Ask.runIn_ofExcept know _), stoi_toDecimal,
      Ask.runIn_bind_ok know _ (Ask.runIn_ofExcept know _), Int.toNat_natCast,
      Ask.runIn_bind_ok know _ hsteps]
    rfl
  · simp only [Proof.verify, Hash.fromBase32_toBase32, hclimb]
    simp [bind, Except.bind, pure, Except.pure]

section

variable {know : Query → Option (Option Bytes)} (hknow : ∀ k, ∃ v, know (.string k) = some v)

include hknow

theorem readString_returns (k : Bytes) : ∃ val, (readString k).runIn know = some (.ok val) := by
  obtain ⟨v, hv⟩ := hknow k
  exact ⟨v.getD [], by rw [readString, Ask.runIn_query_bind know _ hv]; rfl⟩

theorem sibling_returns (commitSeq : Bytes) (i ptr last : ℕ) (complete : Bool) :
    ∃ s, (sibling commitSeq i ptr last complete).runIn know = some (.ok s) := by
  rw [sibling]
  split_ifs
  · exact ⟨_, rfl⟩
  all_goals
    obtain ⟨val, hval⟩ := readString_returns hknow _
    exact ⟨_, by rw [Ask.runIn_bind_ok know _ hval]; rfl⟩

theorem siblings_returns (commitSeq : Bytes) : ∀ (rounds i ptr last : ℕ) (complete : Bool),
    ∃ steps, (siblings commitSeq rounds i ptr last complete).runIn know = some (.ok steps)
  | 0, _, _, _, _ => ⟨[], rfl⟩
  | rounds + 1, i, ptr, last, complete => by
    obtain ⟨s, hs⟩ := sibling_returns hknow commitSeq i ptr last complete
    obtain ⟨steps, hsteps⟩ := siblings_returns commitSeq rounds (i + 1) (ptr / 2) (last / 2)
      (complete && last / 2 % 2 == 1)
    refine ⟨s :: steps, ?_⟩
    rw [siblings, Ask.runIn_bind_ok know _ hs, Ask.runIn_bind_ok know _ hsteps]
    rfl

/-- `getProof` returns for every number of a leaf, also for one behind the tip. -/
theorem getProof_returns (xs : List Hash) (c tip seq : ℕ) :
    ∃ p, (getProof (toDecimal c) (rootOf H xs c).rootKey tip seq).runIn know = some (.ok p) := by
  obtain ⟨digest, hdigest⟩ := readString_returns hknow (rootOf H xs c).rootKey
  obtain ⟨value, hvalue⟩ := readString_returns hknow (nodeKey 0 seq)
  obtain ⟨steps, hsteps⟩ :=
    siblings_returns hknow (toDecimal c) (height xs) 0 seq tip (tip % 2 == 1)
  refine ⟨⟨digest, value, steps.map (·.1), steps.map (·.2)⟩, ?_⟩
  rw [rootOf] at hdigest ⊢
  rw [getProof, Ask.runIn_bind_ok know _ hdigest, Ask.runIn_bind_ok know _ hvalue]
  simp only [level_of_storeKey]
  rw [Ask.runIn_bind_ok know _ (Ask.runIn_ofExcept know _), stoi_toDecimal,
    Ask.runIn_bind_ok know _ (Ask.runIn_ofExcept know _), Int.toNat_natCast,
    Ask.runIn_bind_ok know _ hsteps]
  rfl

end

/-! ### Runs of commits -/

/-- What a commit leaves with its caller: the root and the number of the last leaf. -/
structure Commit where
  root : Root
  tip : ℕ

variable (H) in
/-- The commits `c, c + 1, …` of the given batches of leaf hashes, after `n` leaves. -/
def updates (n c : ℕ) : List (List Hash) → DB → Except Fault (List Commit × DB)
  | [], db => .ok ([], db)
  | batch :: batches, db => do
    let (root, db) ← update H db n (batch.map Hash.toBase32) (prevCommitSeq c)
    let (commits, db) ← updates (n + batch.length) (c + 1) batches db
    return (⟨root, n + batch.length - 1⟩ :: commits, db)

/-- The leaves after the first `i + 1` batches, on top of `old`. -/
def leavesAfter (old : List Hash) (batches : List (List Hash)) (i : ℕ) : List Hash :=
  old ++ (batches.take (i + 1)).flatten

theorem leavesAfter_zero (old batch : List Hash) (batches : List (List Hash)) :
    leavesAfter old (batch :: batches) 0 = old ++ batch := by
  simp [leavesAfter]

theorem leavesAfter_succ (old batch : List Hash) (batches : List (List Hash)) (i : ℕ) :
    leavesAfter old (batch :: batches) (i + 1) = leavesAfter (old ++ batch) batches i := by
  simp [leavesAfter]

/-- A run of commits: each returns the root over the leaves so far, and at the end the trees of
all its commits and of all earlier ones are in the store. -/
theorem updates_spec (batches : List (List Hash)) : ∀ (old : List Hash) (c : ℕ) (db : DB),
    (∀ b ∈ batches, b ≠ []) → (∀ new, HasFinal H (old ++ new) old.length db) →
    ∃ commits db', updates H old.length c batches db = .ok (commits, db') ∧
      commits.length = batches.length ∧
      (∀ i < batches.length,
        commits[i]? = some ⟨rootOf H (leavesAfter old batches i) (c + i),
          (leavesAfter old batches i).length - 1⟩ ∧
        Committed H (leavesAfter old batches i) (c + i) db') ∧
      ∀ ys c', Committed H ys c' db → ys.length ≤ old.length → c' < c → Committed H ys c' db' := by
  induction batches with
  | nil =>
    intro old c db _ _
    exact ⟨[], db, rfl, rfl, by simp, fun ys c' h _ _ => h⟩
  | cons batch batches ih =>
    intro old c db hne hdb
    obtain ⟨ws, hupdate, hws⟩ := update_spec H (hne batch (List.mem_cons_self ..)) c (hdb batch)
    set db1 : DB := { db with rocks := ws ++ db.rocks }
    have hnow : Committed H (old ++ batch) c db1 :=
      committed_append H (hdb batch) hws (by rw [List.length_append]; omega)
    obtain ⟨commits, db', hrest, hlen, hcommits, hkeep⟩ := ih (old ++ batch) (c + 1) db1
      (fun b hb => hne b (List.mem_cons_of_mem _ hb)) (hnow.hasFinal H)
    rw [List.length_append] at hrest hkeep
    refine ⟨⟨rootOf H (old ++ batch) c, old.length + batch.length - 1⟩ :: commits, db', ?_,
      by simp [hlen], ?_, ?_⟩
    · simp only [updates, hupdate, bind, Except.bind, hrest, pure, Except.pure]
    · intro i hi
      cases i with
      | zero =>
        rw [leavesAfter_zero, Nat.add_zero, List.getElem?_cons_zero, List.length_append]
        exact ⟨rfl, hkeep _ _ hnow (by rw [List.length_append]) (by omega)⟩
      | succ i =>
        obtain ⟨h1, h2⟩ := hcommits i (by simpa using hi)
        rw [leavesAfter_succ, List.getElem?_cons_succ, show c + (i + 1) = c + 1 + i by omega]
        exact ⟨h1, h2⟩
    · intro ys c' hys hle hc
      exact hkeep ys c' (hys.append H hws hle (by omega)) (by omega) (by omega)

/-- What is in a store is known to whoever reads it. -/
theorem Committed.knowsTree {xs : List Hash} {c : ℕ} {db : DB} (h : Committed H xs c db) :
    KnowsTree H (fun q => some (db.view q)) xs c :=
  fun l j v hl hv => congrArg some (h l j v hl hv)

/-- **Merkle proofs of a run**: on an empty store, commit any non-empty batches one after the
other.  Whatever was committed later, `getProof` with the root key and the tip of a commit returns
for each of its leaves that leaf, the root hash returned by the commit, and a proof that
verifies. -/
theorem getProof_updates (batches : List (List Hash)) (hne : ∀ b ∈ batches, b ≠ []) :
    ∃ commits db, updates H 0 0 batches {} = .ok (commits, db) ∧
      commits.length = batches.length ∧
      ∀ c commit, commits[c]? = some commit →
        commit.tip + 1 = (batches.take (c + 1)).flatten.length ∧
        ∀ seq leaf, seq ≤ commit.tip → batches.flatten[seq]? = some leaf →
          ∃ p, (getProof (toDecimal c) commit.root.rootKey commit.tip seq).run db.view = .ok p ∧
            p.value = leaf.toBase32 ∧ p.digest = commit.root.rootHash ∧ p.verify H = .ok true := by
  obtain ⟨commits, db, hrun, hlen, hcommits, -⟩ := updates_spec batches [] 0 {} hne
    (fun new => hasFinal_zero H _ _)
  refine ⟨commits, db, hrun, hlen, ?_⟩
  intro c commit hc
  have hclt : c < batches.length := hlen ▸ (List.getElem?_eq_some_iff.mp hc).1
  obtain ⟨hrec, hcom⟩ := hcommits c hclt
  rw [hc] at hrec
  obtain rfl := Option.some.inj hrec
  set xs := leavesAfter [] batches c with hxs
  have hxs' : xs = (batches.take (c + 1)).flatten := by simp [hxs, leavesAfter]
  have hpos : 0 < xs.length := by
    have hmem : batches[c] ∈ batches.take (c + 1) :=
      List.mem_take_iff_getElem.mpr ⟨c, by omega, rfl⟩
    rw [List.length_pos_iff, hxs', List.flatten_ne_nil_iff]
    exact ⟨_, hmem, hne _ (List.getElem_mem hclt)⟩
  refine ⟨by rw [← hxs']; simp only; omega, ?_⟩
  intro seq leaf hseq hleaf
  have hxsleaf : xs[seq]? = some leaf := by
    have hsplit : batches.flatten = xs ++ (batches.drop (c + 1)).flatten := by
      rw [hxs', ← List.flatten_append, List.take_append_drop]
    rwa [hsplit, List.getElem?_append_left (by simp only at hseq; omega)] at hleaf
  rw [Nat.zero_add] at hcom ⊢
  obtain ⟨p, hp, hvalue, hdigest, hverify⟩ := getProof_runIn hcom.knowsTree hxsleaf
  exact ⟨p, Ask.run_eq_of_runIn (fun q r h => Option.some.inj h) hp, hvalue, hdigest, hverify⟩

/-- The hashes of the texts `a`, `b` and `c`. -/
def hashA : Hash := Hash.fromBase32 (str "GM74WTXBVJ6BCU2V5RTM5LERPSF73AK3")

@[inherit_doc hashA]
def hashB : Hash := Hash.fromBase32 (str "YAU4ESZMRHNQG757RMCJGBLJ7WCCF56A")

@[inherit_doc hashA]
def hashC : Hash := Hash.fromBase32 (str "IN7T55E66E4BYHOLDDN4CHXG565JW5CZ")

/-- BLAKE2b on the texts `a`, `b` and `c` and on the inner nodes over them. -/
def hashABC : Bytes → Hash := Hash.ofTable
  [(str "a", "GM74WTXBVJ6BCU2V5RTM5LERPSF73AK3"),
    (str "b", "YAU4ESZMRHNQG757RMCJGBLJ7WCCF56A"),
    (str "c", "IN7T55E66E4BYHOLDDN4CHXG565JW5CZ"),
    (hashA.bytes ++ hashB.bytes, "6BW2HFBNBAUQJXN4JZU6INZHIPEDVWU4"),
    (hashC.bytes, "CRJZZF3BWUF4ODNOK2GYYW2IV2GY6ZOQ"),
    ((Hash.fromBase32 (str "6BW2HFBNBAUQJXN4JZU6INZHIPEDVWU4")).bytes ++
      (Hash.fromBase32 (str "CRJZZF3BWUF4ODNOK2GYYW2IV2GY6ZOQ")).bytes,
      "XWZ2ZPD4HOV23XRNEJA5PUFMQ7YAZLM6")]

/-- One leaf, then two: both commits are made, and the first still has its one leaf. -/
theorem getProof_updates_one_two :
    (∀ b ∈ [[hashA], [hashB, hashC]], b ≠ []) ∧
      ∃ commits db, updates hashABC 0 0 [[hashA], [hashB, hashC]] {} = .ok (commits, db) ∧
        commits.length = 2 ∧
        ∀ commit, commits[0]? = some commit → commit.tip + 1 = 1 ∧
          ∃ p, (getProof (toDecimal 0) commit.root.rootKey commit.tip 0).run db.view = .ok p ∧
            p.value = hashA.toBase32 ∧ p.digest = commit.root.rootHash ∧
            p.verify hashABC = .ok true := by
  have hne : ∀ b ∈ [[hashA], [hashB, hashC]], b ≠ [] := by simp
  obtain ⟨commits, db, hrun, hlen, hproof⟩ :=
    getProof_updates (H := hashABC) [[hashA], [hashB, hashC]] hne
  refine ⟨hne, commits, db, hrun, hlen, fun commit hcommit => ?_⟩
  obtain ⟨htip, hleaf⟩ := hproof 0 commit hcommit
  exact ⟨htip, hleaf 0 hashA (by omega) rfl⟩

end Ledgerdb.MerkleTree

end LedgerDatabase
