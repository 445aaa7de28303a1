import LedgerDatabase.Common.Equiv.Bytes
import LedgerDatabase.Common.Equiv.Hash
import LedgerDatabase.Ledgerdb.MerkleTree
import LedgerDatabase.Library.PairTree
import LedgerDatabase.Library.PutLog

/-!
# Correctness of the append-only Merkle tree

The tree over the leaves `xs` is `PairTree.level (hashPair H) (hashOne H) · xs`.  After commit `c`
node `j` of level `l` is stored under `storeKey xs.length c l j`: without the commit once its
subtree is full.

* `update_spec`: `update` writes exactly the nodes that contain a new leaf (`NodeWrite`), returns
  the root of the whole tree, and never touches a node that is final or belongs to another commit.
* `committed_update` and `Committed.update`: so every commit keeps its tree in the store.
* `getProof_runIn`: from the stored nodes of a commit, `getProof` returns a proof that verifies.
-/

namespace LedgerDatabase.Ledgerdb.MerkleTree

open PairTree

variable (H : Bytes → Hash)

/-- Level `L` of the Merkle tree over `xs`. -/
abbrev hashLevel (L : ℕ) (xs : List Hash) : List Hash := level (hashPair H) (hashOne H) L xs

theorem hashLevel_succ (L : ℕ) (xs : List Hash) :
    hashLevel H (L + 1) xs = pairUp (hashPair H) (hashOne H) (hashLevel H L xs) :=
  level_succ ..

theorem lt_length_hashLevel (L k : ℕ) (xs : List Hash) :
    k < (hashLevel H L xs).length ↔ k * 2 ^ L < xs.length :=
  lt_length_level ..

/-- The height of the tree over `xs`. -/
abbrev height (xs : List Hash) : ℕ := Nat.clog 2 xs.length

/-! ### Storage keys -/

/-- The key of node `j` of level `l`, with or without a commit. -/
def keyOf (l j : ℕ) : Option ℕ → Bytes
  | none => nodeKey l j
  | some c => withCommit (nodeKey l j) (toDecimal c)

/-- The pieces between the dashes of a key. -/
def keyPieces (l j : ℕ) (c : Option ℕ) : List Bytes :=
  (str "mt" ++ toDecimal l) :: toDecimal j :: c.toList.map toDecimal

theorem keyOf_eq_intercalate (l j : ℕ) (c : Option ℕ) :
    keyOf l j c = [45].intercalate (keyPieces l j c) := by
  cases c <;>
    simp [keyOf, keyPieces, withCommit, nodeKey, List.intercalate, show str "-" = [45] from rfl]

theorem dash_not_mem_keyPieces {l j : ℕ} {c : Option ℕ} {p : Bytes} (hp : p ∈ keyPieces l j c) :
    (45 : UInt8) ∉ p := by
  have hdec : ∀ n, (45 : UInt8) ∉ toDecimal n := not_mem_toDecimal (by decide)
  simp only [keyPieces, List.mem_cons, List.mem_map, Option.mem_toList] at hp
  rcases hp with rfl | rfl | ⟨n, -, rfl⟩
  · rw [List.mem_append, not_or]
    exact ⟨by decide, hdec l⟩
  · exact hdec j
  · exact hdec n

/-- A key determines the node and the commit. -/
theorem keyOf_inj {l j l' j' : ℕ} {c c' : Option ℕ} (h : keyOf l j c = keyOf l' j' c') :
    l = l' ∧ j = j' ∧ c = c' := by
  rw [keyOf_eq_intercalate, keyOf_eq_intercalate] at h
  have hp := intercalate_injOn (List.cons_ne_nil _ _) (List.cons_ne_nil _ _)
    (fun _ => dash_not_mem_keyPieces) (fun _ => dash_not_mem_keyPieces) h
  simp only [List.cons.injEq, List.append_cancel_left_eq, toDecimal_inj] at hp
  obtain ⟨hl, hj, hc⟩ := hp
  have hlist := List.map_injective_iff.mpr toDecimal_injective hc
  refine ⟨hl, hj, ?_⟩
  cases c <;> cases c' <;> simp_all

/-- The commit in the key of node `j` of level `l` after a commit `c` that leaves `m` leaves
behind: none for leaves and for full subtrees. -/
def keyCommit (m c l j : ℕ) : Option ℕ := if l = 0 ∨ (j + 1) * 2 ^ l ≤ m then none else some c

/-- Where the commit `c` that leaves `m` leaves behind has node `j` of level `l`. -/
def storeKey (m c l j : ℕ) : Bytes := keyOf l j (keyCommit m c l j)

theorem storeKey_inj {m c l j l' j' : ℕ} (h : storeKey m c l j = storeKey m c l' j') :
    l = l' ∧ j = j' :=
  ⟨(keyOf_inj h).1, (keyOf_inj h).2.1⟩

theorem storeKey_of_full {m c l j : ℕ} (h : l = 0 ∨ (j + 1) * 2 ^ l ≤ m) :
    storeKey m c l j = nodeKey l j := by
  rw [storeKey, keyCommit, if_pos h, keyOf]

theorem storeKey_of_not_full {m c l j : ℕ} (hl : l ≠ 0) (h : m < (j + 1) * 2 ^ l) :
    storeKey m c l j = withCommit (nodeKey l j) (toDecimal c) := by
  rw [storeKey, keyCommit, if_neg (by omega), keyOf]

/-! ### Which nodes are complete -/

/-- The last of `k + 1` nodes on level `l` is full exactly when `2^l` divides the leaves. -/
theorem full_iff_dvd {m l k : ℕ} (hlo : k * 2 ^ l < m) (hhi : m ≤ (k + 1) * 2 ^ l) :
    (k + 1) * 2 ^ l ≤ m ↔ 2 ^ l ∣ m := by
  constructor
  · intro h
    exact ⟨k + 1, by rw [Nat.mul_comm]; omega⟩
  · rintro ⟨q, rfl⟩
    rw [Nat.mul_comm k, Nat.mul_lt_mul_left (Nat.two_pow_pos l)] at hlo
    rw [Nat.mul_comm]
    exact Nat.mul_le_mul_left _ hlo

/-- `2^(l+1)` divides `m` exactly when `2^l` does and the last node of level `l` has an odd
number. -/
theorem two_pow_succ_dvd_iff {m l : ℕ} (hm : 0 < m) :
    2 ^ (l + 1) ∣ m ↔ 2 ^ l ∣ m ∧ (m - 1) / 2 ^ l % 2 = 1 := by
  have hpos := Nat.two_pow_pos l
  constructor
  · rintro ⟨q, rfl⟩
    have hq : 0 < q := Nat.pos_of_mul_pos_left hm
    refine ⟨⟨2 * q, by ring⟩, ?_⟩
    have hdiv : (2 ^ (l + 1) * q - 1) / 2 ^ l = 2 * q - 1 := by
      rw [show 2 ^ (l + 1) * q = 2 ^ l * (2 * q) by ring]
      have hsplit : 2 ^ l * (2 * q) - 1 = 2 ^ l * (2 * q - 1) + (2 ^ l - 1) := by
        have : 2 ^ l * (2 * q) = 2 ^ l * (2 * q - 1) + 2 ^ l := by
          rw [← Nat.mul_succ]; congr 1; omega
        omega
      rw [hsplit, Nat.mul_add_div hpos, Nat.div_eq_of_lt (by omega), Nat.add_zero]
    rw [hdiv]
    omega
  · rintro ⟨⟨q, rfl⟩, hodd⟩
    have hq : 0 < q := Nat.pos_of_mul_pos_left hm
    have hdiv : (2 ^ l * q - 1) / 2 ^ l = q - 1 := by
      have hsplit : 2 ^ l * q - 1 = 2 ^ l * (q - 1) + (2 ^ l - 1) := by
        have : 2 ^ l * q = 2 ^ l * (q - 1) + 2 ^ l := by
          rw [← Nat.mul_succ]; congr 1; omega
        omega
      rw [hsplit, Nat.mul_add_div hpos, Nat.div_eq_of_lt (by omega), Nat.add_zero]
    rw [hdiv] at hodd
    refine ⟨q / 2, ?_⟩
    rw [pow_succ, Nat.mul_assoc]
    congr 1
    omega

/-! ### The writes of `update` -/

/-- A write of the commit `c` that extends `n` leaves to `xs`: a node with a new leaf under it. -/
def NodeWrite (xs : List Hash) (n c : ℕ) (w : Bytes × Bytes) : Prop :=
  ∃ l j h, (hashLevel H l xs)[j]? = some h ∧ n < (j + 1) * 2 ^ l ∧
    w = (storeKey xs.length c l j, h.toBase32)

/-- The writes to level `l` from node `p` on. -/
structure LevelWrites (xs : List Hash) (c l p : ℕ) (ws : List (Bytes × Bytes)) : Prop where
  /-- Only nodes of the level from `p` on are written. -/
  sound : ∀ w ∈ ws, ∃ j h, p ≤ j ∧ (hashLevel H l xs)[j]? = some h ∧
    w = (storeKey xs.length c l j, h.toBase32)
  /-- All of them are. -/
  complete : ∀ j h, p ≤ j → (hashLevel H l xs)[j]? = some h →
    (storeKey xs.length c l j, h.toBase32) ∈ ws

theorem levelWrites_nil {xs : List Hash} {c l p : ℕ} (h : (hashLevel H l xs).length ≤ p) :
    LevelWrites H xs c l p [] where
  sound := by simp
  complete j v hj hv := by
    obtain ⟨hlt, -⟩ := List.getElem?_eq_some_iff.mp hv
    omega

theorem LevelWrites.concat {xs : List Hash} {c l p : ℕ} {ws : List (Bytes × Bytes)} {h : Hash}
    (hws : LevelWrites H xs c l (p + 1) ws) (hp : (hashLevel H l xs)[p]? = some h) :
    LevelWrites H xs c l p (ws ++ [(storeKey xs.length c l p, h.toBase32)]) where
  sound w hw := by
    rcases List.mem_append.mp hw with hw | hw
    · obtain ⟨j, v, hj, hv, rfl⟩ := hws.sound w hw
      exact ⟨j, v, by omega, hv, rfl⟩
    · rw [List.mem_singleton] at hw
      exact ⟨p, h, le_refl p, hp, hw⟩
  complete j v hj hv := by
    rw [List.mem_append]
    rcases Nat.eq_or_lt_of_le hj with rfl | hlt
    · rw [hp] at hv
      obtain rfl := Option.some.inj hv
      exact Or.inr (List.mem_singleton_self _)
    · exact Or.inl (hws.complete j v hlt hv)

theorem putLeaves_spec (xs : List Hash) (c : ℕ) : ∀ (n : ℕ) (db : DB), n ≤ xs.length →
    ∃ ws, putLeaves db n ((xs.drop n).map Hash.toBase32) = { db with rocks := ws ++ db.rocks } ∧
      LevelWrites H xs c 0 n ws := by
  intro n db hn
  induction hk : xs.length - n generalizing n db with
  | zero =>
    refine ⟨[], ?_, levelWrites_nil H (by simp; omega)⟩
    rw [List.drop_eq_nil_of_le (by omega)]
    rfl
  | succ k ih =>
    have hlt : n < xs.length := by omega
    obtain ⟨ws, hput, hws⟩ := ih (n + 1) (db.putString (nodeKey 0 n) xs[n].toBase32)
      (by omega) (by omega)
    have hnode : (hashLevel H 0 xs)[n]? = some xs[n] := List.getElem?_eq_getElem hlt
    refine ⟨_, ?_, hws.concat H hnode⟩
    rw [List.drop_eq_getElem_cons hlt, List.map_cons, putLeaves, hput,
      storeKey_of_full (Or.inl rfl)]
    simp [DB.putString]

theorem drop_hashLevel_succ {l k : ℕ} {xs : List Hash} (h : k % 2 = 0) :
    (hashLevel H (l + 1) xs).drop (k / 2)
      = pairUp (hashPair H) (hashOne H) ((hashLevel H l xs).drop k) := by
  rw [hashLevel_succ, drop_pairUp]
  congr 2
  omega

theorem length_hashLevel {xs : List Hash} (h : 0 < xs.length) (l : ℕ) :
    (hashLevel H l xs).length = (xs.length - 1) / 2 ^ l + 1 := by
  have hiff : ∀ k, k < (hashLevel H l xs).length ↔ k < (xs.length - 1) / 2 ^ l + 1 := by
    intro k
    rw [lt_length_hashLevel, Nat.lt_succ_iff, Nat.le_div_iff_mul_le (Nat.two_pow_pos l)]
    omega
  have h1 := hiff (hashLevel H l xs).length
  have h2 := hiff ((xs.length - 1) / 2 ^ l + 1)
  omega

theorem decide_two_pow_succ_dvd {xs : List Hash} (h : 0 < xs.length) (l : ℕ) :
    decide (2 ^ (l + 1) ∣ xs.length)
      = (decide (2 ^ l ∣ xs.length) && decide ((hashLevel H l xs).length % 2 = 0)) := by
  rw [← Bool.decide_and, decide_eq_decide, two_pow_succ_dvd_iff h, length_hashLevel H h]
  omega

/-- The key of the last parent, when it has two children. -/
theorem storeKey_last {m c l k : ℕ} (hlo : (2 * k + 1) * 2 ^ l < m) (hhi : m ≤ (2 * k + 2) * 2 ^ l) :
    storeKey m c (l + 1) k = if !decide (2 ^ l ∣ m) then
      withCommit (nodeKey (l + 1) k) (toDecimal c) else nodeKey (l + 1) k := by
  have hfull := full_iff_dvd (k := 2 * k + 1) hlo hhi
  have hpow : (k + 1) * 2 ^ (l + 1) = (2 * k + 1 + 1) * 2 ^ l := by ring
  by_cases hd : 2 ^ l ∣ m
  · rw [storeKey_of_full (Or.inr (by rw [hpow]; exact hfull.mpr hd))]
    simp [hd]
  · have hlt : m < (k + 1) * 2 ^ (l + 1) := by
      rw [hpow]
      exact Nat.lt_of_not_le fun hle => hd (hfull.mp hle)
    rw [storeKey_of_not_full (by omega) hlt]
    simp [hd]

/-- The loop over a level stores the parents from node `(s + i) / 2` on and returns them. -/
theorem parents_spec (xs : List Hash) (hne : xs ≠ []) (c l s : ℕ) :
    ∀ (hs : List Hash) (i : ℕ) (db : DB), (s + i) % 2 = 0 →
      s + i ≤ (hashLevel H l xs).length → (hashLevel H l xs).drop (s + i) = hs →
      ∃ ws, parents H l s (toDecimal c) i hs (decide (2 ^ l ∣ xs.length)) db
          = ((hashLevel H (l + 1) xs).drop ((s + i) / 2), decide (2 ^ (l + 1) ∣ xs.length),
            { db with rocks := ws ++ db.rocks }) ∧
        LevelWrites H xs c (l + 1) ((s + i) / 2) ws
  | [], i, db, heven, hle, hdrop => by
    -- the level has `s + i` nodes, an even number
    have hlen : (hashLevel H l xs).length = s + i := by
      have := List.drop_eq_nil_iff.mp hdrop
      omega
    refine ⟨[], ?_, levelWrites_nil H ?_⟩
    · rw [parents, drop_hashLevel_succ H heven, hdrop, pairUp,
        decide_two_pow_succ_dvd H (List.length_pos_iff.mpr hne), hlen, heven]
      simp
    · rw [hashLevel_succ, length_pairUp, hlen]
      omega
  | [h], i, db, heven, hle, hdrop => by
    have hlen : (hashLevel H l xs).length = s + i + 1 := by
      have := congrArg List.length hdrop
      rw [List.length_drop, List.length_singleton] at this
      omega
    have hnode : (hashLevel H (l + 1) xs)[(s + i) / 2]? = some (hashOne H h) := by
      rw [← Nat.add_zero ((s + i) / 2), ← List.getElem?_drop, drop_hashLevel_succ H heven, hdrop,
        pairUp, List.getElem?_cons_zero]
    have hend : (hashLevel H (l + 1) xs).length ≤ (s + i) / 2 + 1 := by
      rw [hashLevel_succ, length_pairUp, hlen]
      omega
    refine ⟨_, ?_, (levelWrites_nil H hend).concat H hnode⟩
    -- the lone node is not full, whatever `complete` was
    have hlast := lt_length_hashLevel H l (s + i + 1) xs
    have hkey : storeKey xs.length c (l + 1) ((s + i) / 2)
        = withCommit (nodeKey (l + 1) ((s + i) / 2)) (toDecimal c) := by
      apply storeKey_of_not_full (by omega)
      have hpow : ((s + i) / 2 + 1) * 2 ^ (l + 1) = (s + i + 1) * 2 ^ l + 2 ^ l := by
        obtain ⟨k, hk⟩ : ∃ k, s + i = 2 * k := ⟨(s + i) / 2, by omega⟩
        rw [hk, Nat.mul_div_cancel_left k (by omega)]
        ring
      have := Nat.two_pow_pos l
      omega
    rw [parents, drop_hashLevel_succ H heven, hdrop, pairUp,
      decide_two_pow_succ_dvd H (List.length_pos_iff.mpr hne), hlen, hkey,
      show decide ((s + i + 1) % 2 = 0) = false by simp; omega, Bool.and_false]
    rfl
  | h :: h' :: rest, i, db, heven, hle, hdrop => by
    have hlen : (hashLevel H l xs).length = s + i + 2 + rest.length := by
      have := congrArg List.length hdrop
      rw [List.length_drop, List.length_cons, List.length_cons] at this
      omega
    have hdrop' : (hashLevel H l xs).drop (s + (i + 2)) = rest := by
      rw [← Nat.add_assoc, ← List.drop_drop, hdrop]
      rfl
    have hnode : (hashLevel H (l + 1) xs)[(s + i) / 2]? = some (hashPair H h h') := by
      rw [← Nat.add_zero ((s + i) / 2), ← List.getElem?_drop, drop_hashLevel_succ H heven, hdrop,
        pairUp, List.getElem?_cons_zero]
    have hnext : (s + (i + 2)) / 2 = (s + i) / 2 + 1 := by omega
    set key := if rest.isEmpty && !decide (2 ^ l ∣ xs.length) then
      withCommit (nodeKey (l + 1) ((s + i) / 2)) (toDecimal c)
      else nodeKey (l + 1) ((s + i) / 2) with hkeydef
    have hkey : storeKey xs.length c (l + 1) ((s + i) / 2) = key := by
      have hlast := lt_length_hashLevel H l (s + i + 1) xs
      have hover := lt_length_hashLevel H l (s + i + 2) xs
      cases rest with
      | nil =>
        rw [List.length_nil] at hlen
        have hs : s + i = 2 * ((s + i) / 2) := by omega
        rw [storeKey_last (by rw [← hs]; omega) (by rw [← hs]; omega), hkeydef]
        simp
      | cons a rest =>
        rw [List.length_cons] at hlen
        have hpow : ((s + i) / 2 + 1) * 2 ^ (l + 1) = (s + i + 2) * 2 ^ l := by
          rw [show s + i + 2 = 2 * ((s + i) / 2 + 1) by omega]
          ring
        rw [storeKey_of_full (Or.inr (by rw [hpow]; omega)), hkeydef]
        simp
    obtain ⟨ws, hrec, hws⟩ := parents_spec xs hne c l s rest (i + 2)
      (db.putString key (hashPair H h h').toBase32) (by omega) (by omega) hdrop'
    rw [hnext] at hrec hws
    refine ⟨_, ?_, hws.concat H hnode⟩
    rw [parents]
    simp only [← hkeydef, hrec, hkey]
    rw [← hnext, drop_hashLevel_succ H (by omega), hdrop', drop_hashLevel_succ H heven, hdrop, pairUp]
    simp [DB.putString]

/-! ### The loop over the levels -/

/-- The final nodes of the first `n` leaves of `xs` are in the store. -/
def HasFinal (xs : List Hash) (n : ℕ) (db : DB) : Prop :=
  ∀ l j h, (j + 1) * 2 ^ l ≤ n → (hashLevel H l xs)[j]? = some h →
    db.getString (nodeKey l j) = some h.toBase32

/-- A write of a later commit is to another key than a final node. -/
theorem NodeWrite.key_ne_of_final {xs : List Hash} {n c l j : ℕ} {w : Bytes × Bytes}
    (hw : NodeWrite H xs n c w) (h : (j + 1) * 2 ^ l ≤ n) : w.1 ≠ nodeKey l j := by
  obtain ⟨l', j', v, -, hn, rfl⟩ := hw
  intro heq
  change storeKey xs.length c l' j' = keyOf l j none at heq
  obtain ⟨rfl, rfl, -⟩ := keyOf_inj heq
  omega

theorem HasFinal.append {xs : List Hash} {n c : ℕ} {db : DB} {ws : List (Bytes × Bytes)}
    (h : HasFinal H xs n db) (hws : ∀ w ∈ ws, NodeWrite H xs n c w) :
    HasFinal H xs n { db with rocks := ws ++ db.rocks } := by
  intro l j v hle hv
  have hnot : ∀ u, (nodeKey l j, u) ∉ ws := fun u hu => (hws _ hu).key_ne_of_final H hle rfl
  exact (PutLog.lookup_append_of_not_mem hnot).trans (h l j v hle hv)

/-- The writes of `update`: all nodes above level `l` with a new leaf under them. -/
structure TreeWrites (xs : List Hash) (n c l : ℕ) (ws : List (Bytes × Bytes)) : Prop where
  /-- Only such nodes are written. -/
  sound : ∀ w ∈ ws, NodeWrite H xs n c w
  /-- All of them are. -/
  complete : ∀ l' j h, l ≤ l' → l' ≤ height xs → (hashLevel H l' xs)[j]? = some h →
    n < (j + 1) * 2 ^ l' → (storeKey xs.length c l' j, h.toBase32) ∈ ws

theorem LevelWrites.nodeWrite {xs : List Hash} {n c l : ℕ} {ws : List (Bytes × Bytes)}
    (h : LevelWrites H xs c l (n / 2 ^ l) ws) : ∀ w ∈ ws, NodeWrite H xs n c w := by
  intro w hw
  obtain ⟨j, v, hj, hv, rfl⟩ := h.sound w hw
  exact ⟨l, j, v, hv, (Nat.div_lt_iff_lt_mul (Nat.two_pow_pos l)).mp (by omega), rfl⟩

/-- The writes to one level, then those above it. -/
theorem TreeWrites.cons {xs : List Hash} {n c l : ℕ} {ws ws' : List (Bytes × Bytes)}
    (h : TreeWrites H xs n c (l + 1) ws) (h' : LevelWrites H xs c l (n / 2 ^ l) ws') :
    TreeWrites H xs n c l (ws ++ ws') where
  sound w hw := by
    rcases List.mem_append.mp hw with hw | hw
    · exact h.sound w hw
    · exact h'.nodeWrite H w hw
  complete l' j v hl hl' hv hn := by
    rw [List.mem_append]
    rcases Nat.eq_or_lt_of_le hl with rfl | hlt
    · have hj : n / 2 ^ l < j + 1 := (Nat.div_lt_iff_lt_mul (Nat.two_pow_pos l)).mpr hn
      exact Or.inr (h'.complete j v (by omega) hv)
    · exact Or.inl (h.complete l' j v hlt hl' hv hn)

theorem prevCompleteAt_of_even {s : ℕ} (h : s % 2 = 0) : prevCompleteAt s = true := by
  unfold prevCompleteAt
  split_ifs
  · simp only [beq_iff_eq]
    omega
  · rfl

/-- Loading moves the start of the level to the even number below it.  The node loaded is final,
so its key has no commit; `prevComplete` would only add one on the level where it is not read. -/
theorem loadPrev_spec {xs : List Hash} {n l q : ℕ} {pc : Bool} {db : DB} (prevCommitSeq : Bytes)
    (hdb : HasFinal H xs n db) (hn : n < xs.length) (hq : q * 2 ^ l ≤ n)
    (hpc : pc = true ∨ l = 0 ∧ q % 2 = 1) :
    loadPrev db prevCommitSeq l q pc ((hashLevel H l xs).drop q)
      = (q - q % 2, true, (hashLevel H l xs).drop (q - q % 2)) := by
  unfold loadPrev
  split_ifs with hodd
  · have hsub : q - 1 + 1 = q := by omega
    have hin : q - 1 < (hashLevel H l xs).length := by
      rw [lt_length_hashLevel]
      have : (q - 1) * 2 ^ l ≤ q * 2 ^ l := Nat.mul_le_mul_right _ (by omega)
      omega
    have hkey : prevKey l q pc prevCommitSeq = nodeKey l (q - 1) := by
      unfold prevKey
      rcases hpc with rfl | ⟨rfl, -⟩ <;> simp
    have hget := hdb l (q - 1) _ (by rw [hsub]; exact hq) (List.getElem?_eq_getElem hin)
    simp only [hkey, hget, Option.getD_some, Hash.fromBase32_toBase32]
    rw [hodd, prevCompleteAt_of_even (by omega), List.drop_eq_getElem_cons hin, hsub]
  · have hpc' : pc = true := by
      rcases hpc with h | ⟨-, h⟩
      · exact h
      · exact absurd h hodd
    rw [hpc', show q % 2 = 0 by omega, Nat.sub_zero]

/-- From level `l` on, the loop stores the new nodes of all higher levels and ends at the root. -/
theorem levels_spec (xs : List Hash) (n c : ℕ) (hn : n < xs.length) (prevCommitSeq : Bytes) :
    ∀ (fuel l : ℕ) (prevComplete : Bool) (db : DB), l ≤ height xs → height xs - l < fuel →
      (prevComplete = true ∨ l = 0 ∧ n / 2 ^ l % 2 = 1) → HasFinal H xs n db →
      ∃ ws, levels H prevCommitSeq (toDecimal c) fuel l (n / 2 ^ l) prevComplete
          (decide (2 ^ l ∣ xs.length)) ((hashLevel H l xs).drop (n / 2 ^ l)) db
          = .ok (height xs, decide (2 ^ height xs ∣ xs.length), hashLevel H (height xs) xs,
            { db with rocks := ws ++ db.rocks }) ∧
        TreeWrites H xs n c (l + 1) ws := by
  intro fuel
  induction fuel with
  | zero => intro l pc db _ hfuel; omega
  | succ fuel ih =>
    intro l pc db hl hfuel hpc hdb
    have hne : xs ≠ [] := List.length_pos_iff.mp (by omega)
    rcases Nat.eq_or_lt_of_le hl with rfl | hlt
    · -- at the height, one node and no earlier one are left
      have hm : xs.length ≤ 2 ^ height xs := length_le_two_pow_clog xs
      have hs : n / 2 ^ height xs = 0 := Nat.div_eq_of_lt (by omega)
      have hone : (hashLevel H (height xs) xs).length = 1 := length_level_clog _ _ hne
      refine ⟨[], ?_, ⟨by simp, by omega⟩⟩
      rw [levels, hs, List.drop_zero, hone]
      simp
    · have hm : 2 ^ l < xs.length := two_pow_lt_of_lt_clog hlt
      have hq : n / 2 ^ l * 2 ^ l ≤ n := Nat.div_mul_le_self ..
      have hnext : n / 2 ^ (l + 1) = n / 2 ^ l / 2 := by rw [pow_succ, Nat.div_div_eq_div_mul]
      have hload := loadPrev_spec H prevCommitSeq hdb hn hq hpc
      have hqlen : n / 2 ^ l ≤ (hashLevel H l xs).length :=
        Nat.le_of_lt ((lt_length_hashLevel H l _ xs).mpr (by omega))
      have htwo := (lt_length_hashLevel H l 1 xs).mpr (by omega)
      have ih' := ih (l + 1) true
      generalize n / 2 ^ l = q at hpc hq hnext hload hqlen ⊢
      have hmore : (1 < ((hashLevel H l xs).drop q).length || 0 < q) = true := by
        rw [List.length_drop]
        simp only [Bool.or_eq_true, decide_eq_true_eq]
        omega
      obtain ⟨ws', hparents, hws'⟩ := parents_spec H xs hne c l (q - q % 2) _ 0 db (by omega)
        (by omega) rfl
      have hhalf : (q - q % 2 + 0) / 2 = n / 2 ^ (l + 1) := by omega
      rw [Nat.add_zero] at hparents
      rw [hhalf] at hws'
      obtain ⟨ws, hrec, hws⟩ := ih' { db with rocks := ws' ++ db.rocks } hlt (by omega)
        (Or.inl rfl) (hdb.append H (hws'.nodeWrite H))
      refine ⟨ws ++ ws', ?_, hws.cons H hws'⟩
      rw [levels, if_pos hmore, hload]
      simp only [hparents]
      rw [show (q - q % 2) / 2 = n / 2 ^ (l + 1) from hhalf, hrec, List.append_assoc]

/-! ### `update` -/

/-- The root hash of the tree over `xs`. -/
def merkleRoot (xs : List Hash) : Hash := ((hashLevel H (height xs) xs)[0]?).getD (H [])

theorem hashLevel_height {xs : List Hash} (h : xs ≠ []) :
    hashLevel H (height xs) xs = [merkleRoot H xs] := by
  have hone : (hashLevel H (height xs) xs).length = 1 := length_level_clog _ _ h
  obtain ⟨r, hr⟩ := List.length_eq_one_iff.mp hone
  rw [merkleRoot, hr]
  rfl

/-- What `update` returns for commit `c` when the leaves are `xs`. -/
def rootOf (xs : List Hash) (c : ℕ) : Root :=
  ⟨storeKey xs.length c (height xs) 0, (merkleRoot H xs).toBase32⟩

theorem nextCommitSeq_prevCommitSeq (c : ℕ) : nextCommitSeq (prevCommitSeq c) = .ok (toDecimal c) := by
  unfold nextCommitSeq prevCommitSeq
  cases c with
  | zero => simp; rfl
  | succ c =>
    simp only [Nat.add_one_ne_zero, if_false, Nat.add_sub_cancel, stoul_toDecimal,
      List.length_eq_zero_iff, toDecimal_ne_nil]
    rfl

/-- The root is stored without a commit exactly when the whole tree is full. -/
theorem rootKey_eq {m c l : ℕ} (hm : 0 < m) (hl : m ≤ 2 ^ l) :
    (if decide (2 ^ l ∣ m) then str "mt" ++ toDecimal l ++ str "-0"
      else withCommit (str "mt" ++ toDecimal l ++ str "-0") (toDecimal c)) = storeKey m c l 0 := by
  have hkey : str "mt" ++ toDecimal l ++ str "-0" = nodeKey l 0 := by
    rw [nodeKey, List.append_assoc _ (str "-")]
    rfl
  have hfull := full_iff_dvd (k := 0) (by omega) (by omega : m ≤ (0 + 1) * 2 ^ l)
  rw [hkey]
  by_cases hd : 2 ^ l ∣ m
  · rw [storeKey_of_full (Or.inr (hfull.mpr hd)), decide_eq_true hd, if_pos rfl]
  · have hl0 : l ≠ 0 := by
      rintro rfl
      exact hd (by simp)
    rw [storeKey_of_not_full hl0 (Nat.lt_of_not_le fun hle => hd (hfull.mp hle)),
      decide_eq_false hd, if_neg Bool.false_ne_true]

/-- **`update` appends**: on a store with the final nodes of `old` it returns the root of the tree
over all leaves, and writes exactly the nodes with a new leaf under them. -/
theorem update_spec {old new : List Hash} (hnew : new ≠ []) (c : ℕ) {db : DB}
    (hdb : HasFinal H (old ++ new) old.length db) :
    ∃ ws, update H db old.length (new.map Hash.toBase32) (prevCommitSeq c)
        = .ok (rootOf H (old ++ new) c, { db with rocks := ws ++ db.rocks }) ∧
      TreeWrites H (old ++ new) old.length c 0 ws := by
  set xs := old ++ new with hxs
  have hlen : xs.length = old.length + new.length := List.length_append
  have hpos : 0 < new.length := List.length_pos_iff.mpr hnew
  have hne : xs ≠ [] := List.length_pos_iff.mp (by omega)
  have hdrop : new = xs.drop old.length := by rw [hxs, List.drop_left]
  have hdecode : (new.map Hash.toBase32).map Hash.fromBase32 = new := by
    rw [List.map_map, show Hash.fromBase32 ∘ Hash.toBase32 = id from
      funext Hash.fromBase32_toBase32, List.map_id]
  obtain ⟨ws', hput, hws'⟩ := putLeaves_spec H xs c old.length db (by omega)
  have hws'' : LevelWrites H xs c 0 (old.length / 2 ^ 0) ws' := by rwa [pow_zero, Nat.div_one]
  obtain ⟨ws, hlevels, hws⟩ := levels_spec H xs old.length c (by omega) (prevCommitSeq c)
    (old.length + new.length + 1) 0 (prevCompleteAt old.length)
    { db with rocks := ws' ++ db.rocks } (by omega)
    (by have : height xs ≤ xs.length := Nat.clog_le_of_le_pow Nat.lt_two_pow_self.le
        omega)
    (by rcases Nat.mod_two_eq_zero_or_one old.length with h | h
        · exact Or.inl (prevCompleteAt_of_even h)
        · exact Or.inr ⟨rfl, by rwa [pow_zero, Nat.div_one]⟩)
    (hdb.append H (hws''.nodeWrite H))
  refine ⟨ws ++ ws', ?_, hws.cons H hws''⟩
  have hstart : (hashLevel H 0 xs).drop old.length = new := hdrop.symm
  have hm : xs.length ≤ 2 ^ height xs := length_le_two_pow_clog xs
  rw [pow_zero, Nat.div_one, hstart, hashLevel_height H hne, decide_eq_true (one_dvd _)] at hlevels
  rw [← hdrop] at hput
  simp only [update, hput, nextCommitSeq_prevCommitSeq, hdecode]
  simp only [bind, Except.bind, hlevels, at?, List.getElem?_cons_zero, pure, Except.pure]
  rw [rootKey_eq (by omega) hm, List.append_assoc]
  rfl

/-! ### The trees of all commits -/

/-- The tree over `xs` is in the store as commit `c` has left it. -/
def Committed (xs : List Hash) (c : ℕ) (db : DB) : Prop :=
  ∀ l j h, l ≤ height xs → (hashLevel H l xs)[j]? = some h →
    db.getString (storeKey xs.length c l j) = some h.toBase32

theorem hasFinal_zero (xs : List Hash) (db : DB) : HasFinal H xs 0 db := by
  intro l j h hle
  have : 0 < (j + 1) * 2 ^ l := Nat.mul_pos (by omega) (Nat.two_pow_pos l)
  omega

theorem Committed.hasFinal {xs : List Hash} {c : ℕ} {db : DB} (h : Committed H xs c db)
    (new : List Hash) : HasFinal H (xs ++ new) xs.length db := by
  intro l j v hle hv
  rw [getElem?_level_append _ _ _ _ _ _ hle] at hv
  have hl : l ≤ height xs := by
    have h1 : 2 ^ l ≤ (j + 1) * 2 ^ l := Nat.le_mul_of_pos_left _ (by omega)
    have h2 := length_le_two_pow_clog xs
    exact (Nat.pow_le_pow_iff_right (by omega)).mp (h1.trans (hle.trans h2))
  rw [← h l j v hl hv, storeKey_of_full (Or.inr hle)]

/-- After an update the whole new tree is in the store. -/
theorem committed_append {xs : List Hash} {n c : ℕ} {db : DB} {ws : List (Bytes × Bytes)}
    (hdb : HasFinal H xs n db) (hws : TreeWrites H xs n c 0 ws) (hn : n ≤ xs.length) :
    Committed H xs c { db with rocks := ws ++ db.rocks } := by
  intro l j v hl hv
  rcases Nat.lt_or_ge n ((j + 1) * 2 ^ l) with hlt | hle
  · -- a node with a new leaf: all writes to its key carry its hash
    obtain ⟨u, hu⟩ := PutLog.lookup_isSome_of_mem (hws.complete l j v (by omega) hl hv hlt)
    obtain ⟨l', j', v', hv', -, hw⟩ := hws.sound _ (PutLog.mem_of_lookup hu)
    obtain ⟨hkey, rfl⟩ := Prod.mk.inj hw
    obtain ⟨rfl, rfl⟩ := storeKey_inj hkey
    rw [hv] at hv'
    obtain rfl := Option.some.inj hv'
    rw [DB.getString, List.lookup_append, hu, Option.some_or]
  · rw [storeKey_of_full (Or.inr (hle.trans hn))]
    exact hdb.append H hws.sound l j v hle hv

/-- A later commit does not write the nodes of an earlier one. -/
theorem NodeWrite.ne_storeKey {xs ys : List Hash} {n c c' l j : ℕ} {v : Hash} {w : Bytes × Bytes}
    (hw : NodeWrite H xs n c w) (hlen : ys.length ≤ n) (hc : c' ≠ c)
    (hv : (hashLevel H l ys)[j]? = some v) : w.1 ≠ storeKey ys.length c' l j := by
  obtain ⟨l', j', v', -, hn, rfl⟩ := hw
  intro heq
  obtain ⟨rfl, rfl, hcommit⟩ := keyOf_inj heq.symm
  have hin := (lt_length_hashLevel H l j ys).mp (List.getElem?_eq_some_iff.mp hv).1
  unfold keyCommit at hcommit
  split_ifs at hcommit with h1
  · rcases h1 with rfl | h1
    · rw [pow_zero, Nat.mul_one] at hn hin
      omega
    · omega
  · exact hc (Option.some.inj hcommit)

/-- Writes to other keys leave a tree as it is. -/
theorem Committed.log {ys : List Hash} {c : ℕ} {db : DB} {ws : List (Bytes × Bytes)}
    (h : Committed H ys c db)
    (hws : ∀ w ∈ ws, ∀ l j v, (hashLevel H l ys)[j]? = some v → w.1 ≠ storeKey ys.length c l j) :
    Committed H ys c { db with rocks := ws ++ db.rocks } := by
  intro l j v hl hv
  have hnot : ∀ u, (storeKey ys.length c l j, u) ∉ ws := fun u hu => hws _ hu l j v hv rfl
  exact (PutLog.lookup_append_of_not_mem hnot).trans (h l j v hl hv)

/-- An update leaves the trees of earlier commits as they are. -/
theorem Committed.append {xs ys : List Hash} {n c c' : ℕ} {db : DB} {ws : List (Bytes × Bytes)}
    (h : Committed H ys c' db) (hws : TreeWrites H xs n c 0 ws) (hlen : ys.length ≤ n)
    (hc : c' ≠ c) : Committed H ys c' { db with rocks := ws ++ db.rocks } :=
  h.log H fun w hw _ _ _ hv => (hws.sound w hw).ne_storeKey H hlen hc hv

end LedgerDatabase.Ledgerdb.MerkleTree
