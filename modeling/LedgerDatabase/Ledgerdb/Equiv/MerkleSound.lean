import LedgerDatabase.Ledgerdb.Equiv.MerkleProof

/-!
# Soundness of Merkle proofs

A proof with as many siblings as the tree has levels is followed from the root downwards.  On every
level the verifier and the tree have hashed strings with the same hash: either these differ, a
collision, or they are the same, and then they have the same length, so that both have used the same
rule (`climb_sound`).  What the verifier has started with is then the leaf to which the positions
lead (`verify_sound`).
-/

namespace LedgerDatabase.Ledgerdb.MerkleTree

open PairTree

variable (H : Bytes → Hash)

/-! ### What is hashed -/

/-- The strings that the tree over `xs` hashes for one level. -/
def levelInputs (l : ℕ) (xs : List Hash) : List Bytes :=
  (groups (hashLevel H l xs)).map fun g => g.flatMap Hash.bytes

/-- The strings that the tree over `xs` hashes. -/
def treeInputs (xs : List Hash) : List Bytes :=
  (List.range (height xs)).flatMap fun l => levelInputs H l xs

/-- The string that the verifier hashes for one sibling. -/
def climbInput (calcHash : Hash) (sibling : Bytes) (pos : ℕ) : Bytes :=
  if pos = 0 then (Hash.fromBase32 sibling).bytes ++ calcHash.bytes
  else if 0 < sibling.length then calcHash.bytes ++ (Hash.fromBase32 sibling).bytes
  else calcHash.bytes

/-- The strings that the verifier hashes for some siblings. -/
def climbInputs : Hash → List Bytes → List ℕ → List Bytes
  | calcHash, s :: siblings, p :: pos =>
    climbInput calcHash s p :: climbInputs (Proof.climb H calcHash s p) siblings pos
  | _, _, _ => []

/-- The strings that `Verify` hashes. -/
def verifyInputs (p : Proof) : List Bytes :=
  climbInputs H (Hash.fromBase32 p.value) p.proof p.pos

/-- Different strings with the same hash, one of the verifier and one of the tree. -/
def Collides (as bs : List Bytes) : Prop := ∃ a ∈ as, ∃ b ∈ bs, a ≠ b ∧ H a = H b

/-- The leaf to which the positions lead: they are the bits of its number. -/
def index : List ℕ → ℕ
  | [] => 0
  | p :: pos => 2 * index pos + if p = 0 then 1 else 0

variable {H} {xs : List Hash} {l k p : ℕ} {v : Hash} {s : Bytes} {siblings : List Bytes}
  {pos : List ℕ}

theorem bytes_injective : Function.Injective Hash.bytes := by
  rintro ⟨a, ha⟩ ⟨b, hb⟩ h
  congr 1

theorem climb_eq (v : Hash) (s : Bytes) (p : ℕ) : Proof.climb H v s p = H (climbInput v s p) := by
  rw [Proof.climb, climbInput]
  split_ifs <;> rfl

theorem testBit_index (pos : List ℕ) (i : ℕ) :
    (index pos).testBit i = decide (pos[i]? = some 0) := by
  induction pos generalizing i with
  | nil => simp [index]
  | cons p pos ih =>
    cases i with
    | zero =>
      rw [index, Nat.testBit_zero, List.getElem?_cons_zero]
      by_cases hp : p = 0
      · simp [hp, Nat.add_mod]
      · simp [hp]
    | succ i =>
      rw [List.getElem?_cons_succ, ← ih, Nat.testBit_succ, index]
      congr 1
      split_ifs <;> omega

theorem mem_levelInputs {g : List Hash} (hg : g ∈ groups (hashLevel H l xs)) :
    g.flatMap Hash.bytes ∈ levelInputs H l xs := List.mem_map_of_mem hg

theorem levelInputs_subset (hl : l < height xs) : levelInputs H l xs ⊆ treeInputs H xs :=
  fun _ hb => List.mem_flatMap.mpr ⟨l, List.mem_range.mpr hl, hb⟩

/-! ### One level -/

/-- The string that the tree hashes for a node that is not a leaf. -/
theorem exists_input (hv : (hashLevel H (l + 1) xs)[k]? = some v) :
    ∃ g : List Hash, (hashLevel H l xs)[2 * k]? = g.head? ∧ (hashLevel H l xs)[2 * k + 1]? = g[1]? ∧
      v = H (g.flatMap Hash.bytes) ∧ g.flatMap Hash.bytes ∈ levelInputs H l xs ∧
      (g.length = 1 ∨ g.length = 2) := by
  rw [hashLevel_succ] at hv
  have hlt : 2 * k < (hashLevel H l xs).length := by
    have hk := (List.getElem?_eq_some_iff.mp hv).1
    rw [length_pairUp] at hk
    omega
  have hmem := List.mem_of_getElem? (getElem?_groups (hashLevel H l xs) k hlt)
  rcases pairUp_cases _ _ hv with ⟨a, b, ha, hb, rfl⟩ | ⟨a, ha, hlen, rfl⟩
  · have hdrop : ((hashLevel H l xs).drop (2 * k)).take 2 = [a, b] := by
      obtain ⟨hlt', rfl⟩ := List.getElem?_eq_some_iff.mp hb
      obtain ⟨_, rfl⟩ := List.getElem?_eq_some_iff.mp ha
      rw [List.drop_eq_getElem_cons hlt, List.drop_eq_getElem_cons hlt']
      rfl
    rw [hdrop] at hmem
    refine ⟨[a, b], ha, hb, ?_, mem_levelInputs hmem, Or.inr rfl⟩
    simp [hashPair]
  · have hdrop : ((hashLevel H l xs).drop (2 * k)).take 2 = [a] := by
      obtain ⟨_, rfl⟩ := List.getElem?_eq_some_iff.mp ha
      rw [List.drop_eq_getElem_cons hlt, List.drop_eq_nil_of_le (by omega)]
      rfl
    rw [hdrop] at hmem
    refine ⟨[a], ha, ?_, ?_, mem_levelInputs hmem, Or.inl rfl⟩
    · rw [List.getElem?_eq_none (by omega)]
      rfl
    · simp [hashOne]

/-- **One level**: a sibling that leads to a node comes from the child on the other side. -/
theorem climb_sound (hv : (hashLevel H (l + 1) xs)[k]? = some (Proof.climb H v s p)) :
    Collides H [climbInput v s p] (levelInputs H l xs) ∨
      (hashLevel H l xs)[2 * k + if p = 0 then 1 else 0]? = some v := by
  obtain ⟨g, hleft, hright, hhash, hmem, hlen⟩ := exists_input hv
  rw [climb_eq] at hhash
  by_cases heq : climbInput v s p = g.flatMap Hash.bytes
  · right
    obtain ⟨a, rfl⟩ | ⟨a, b, rfl⟩ : (∃ a, g = [a]) ∨ ∃ a b, g = [a, b] :=
      hlen.imp List.length_eq_one_iff.mp List.length_eq_two.mp
    · -- one child: twenty bytes
      have hbytes := congrArg List.length heq
      rw [climbInput] at heq hbytes
      split_ifs at heq hbytes with hp hs
      · simp [Hash.length_bytes, kByteLength] at hbytes
      · simp [Hash.length_bytes, kByteLength] at hbytes
      · rw [if_neg hp, Nat.add_zero, hleft, List.head?_cons]
        congr 1
        apply bytes_injective
        simpa using heq.symm
    · -- two children: forty bytes
      have hbytes := congrArg List.length heq
      rw [climbInput] at heq hbytes
      simp only [List.flatMap_cons, List.flatMap_nil, List.append_nil] at heq hbytes
      split_ifs at heq hbytes with hp hs
      · rw [if_pos hp, hright, List.getElem?_cons_succ, List.getElem?_cons_zero]
        congr 1
        apply bytes_injective
        exact (List.append_inj' heq (by rw [Hash.length_bytes, Hash.length_bytes])).2.symm
      · rw [if_neg hp, Nat.add_zero, hleft, List.head?_cons]
        congr 1
        apply bytes_injective
        exact (List.append_inj heq (by rw [Hash.length_bytes, Hash.length_bytes])).1.symm
      · simp [Hash.length_bytes, kByteLength] at hbytes
  · exact Or.inl ⟨_, List.mem_singleton_self _, _, hmem, heq, hhash⟩

/-! ### All levels -/

theorem Collides.mono {as as' bs bs' : List Bytes} (h : Collides H as bs) (has : as ⊆ as')
    (hbs : bs ⊆ bs') : Collides H as' bs' := by
  obtain ⟨a, ha, b, hb, hcoll⟩ := h
  exact ⟨a, has ha, b, hbs hb, hcoll⟩

/-- Siblings that lead to the root come from the node whose number the positions spell. -/
theorem climbAll_sound {root : Hash} (hroot : (hashLevel H (height xs) xs)[0]? = some root)
    (hlevels : l + siblings.length = height xs) (hpos : pos.length = siblings.length)
    (hclimb : Proof.climbAll H v siblings pos = .ok root) :
    Collides H (climbInputs H v siblings pos) (treeInputs H xs) ∨
      (hashLevel H l xs)[index pos]? = some v := by
  induction siblings generalizing l v pos with
  | nil =>
    obtain rfl := List.length_eq_zero_iff.mp hpos
    obtain rfl : l = height xs := hlevels
    obtain rfl := Except.ok.inj hclimb
    exact Or.inr hroot
  | cons s siblings ih =>
    cases pos with
    | nil => cases hpos
    | cons p pos =>
      rw [List.length_cons] at hlevels
      rcases ih (l := l + 1) (by omega) (by simpa using hpos) hclimb with hcoll | hnode
      · exact Or.inl (hcoll.mono (List.subset_cons_self _ _) (List.Subset.refl _))
      · rcases climb_sound hnode with hcoll | hnode
        · refine Or.inl (hcoll.mono ?_ (levelInputs_subset (by omega)))
          rw [climbInputs]
          exact List.cons_subset_cons _ (List.nil_subset _)
        · exact Or.inr hnode

/-- The height is part of the key of the root. -/
theorem prefix_rootKey (xs : List Hash) (c : ℕ) :
    (str "mt" ++ toDecimal (height xs) ++ str "-0") <+: (rootOf H xs c).rootKey := by
  have hkey : nodeKey (height xs) 0 = str "mt" ++ toDecimal (height xs) ++ str "-0" := by
    rw [nodeKey, List.append_assoc _ (str "-")]
    rfl
  rw [rootOf, storeKey, ← hkey]
  cases keyCommit xs.length c (height xs) 0 with
  | none => exact List.prefix_refl _
  | some c' =>
    rw [keyOf, withCommit, List.append_assoc]
    exact List.prefix_append _ _

/-- **Merkle proofs are sound**: commit any non-empty batches on an empty store.  A proof against
the root of a commit, with a sibling and a position for every level of its tree, is only accepted
for the leaf that stands where the positions say, or two strings with the same hash are among
those that the verifier and the tree have hashed. -/
theorem verify_sound (batches : List (List Hash)) (hne : ∀ b ∈ batches, b ≠ []) :
    ∃ commits db, updates H 0 0 batches {} = .ok (commits, db) ∧
      commits.length = batches.length ∧
      ∀ c commit, commits[c]? = some commit → ∃ L,
        (str "mt" ++ toDecimal L ++ str "-0") <+: commit.root.rootKey ∧
        ∀ p : Proof, p.digest = commit.root.rootHash → p.proof.length = L → p.pos.length = L →
          p.verify H = .ok true →
          Collides H (verifyInputs H p) (treeInputs H (batches.take (c + 1)).flatten) ∨
          ∃ seq : ℕ, (∀ i, seq.testBit i = decide (p.pos[i]? = some 0)) ∧
            (batches.take (c + 1)).flatten[seq]? = some (Hash.fromBase32 p.value) := by
  obtain ⟨commits, db, hrun, hlen, hcommits, -⟩ := updates_spec batches [] 0 {} hne
    (fun new => hasFinal_zero H _ _)
  refine ⟨commits, db, hrun, hlen, fun c commit hc => ?_⟩
  have hclt : c < batches.length := hlen ▸ (List.getElem?_eq_some_iff.mp hc).1
  obtain ⟨hrec, -⟩ := hcommits c hclt
  rw [hc] at hrec
  obtain rfl := Option.some.inj hrec
  have hxs : leavesAfter [] batches c = (batches.take (c + 1)).flatten := by simp [leavesAfter]
  rw [hxs]
  set xs := (batches.take (c + 1)).flatten with hxsdef
  have hxne : xs ≠ [] := by
    have hmem : batches[c] ∈ batches.take (c + 1) :=
      List.mem_take_iff_getElem.mpr ⟨c, by omega, rfl⟩
    rw [hxsdef, List.flatten_ne_nil_iff]
    exact ⟨_, hmem, hne _ (List.getElem_mem hclt)⟩
  refine ⟨height xs, prefix_rootKey xs (0 + c), fun p hdigest hproof hpos hverify => ?_⟩
  obtain ⟨calcHash, hcalc, heq⟩ := bind_eq_ok_iff.mp hverify
  have hroot : calcHash = merkleRoot H xs := by
    have := beq_iff_eq.mp (Except.ok.inj heq)
    rwa [hdigest, rootOf, Hash.fromBase32_toBase32] at this
  have htop : (hashLevel H (height xs) xs)[0]? = some calcHash := by
    rw [hashLevel_height H hxne, hroot]
    rfl
  have hsound := climbAll_sound (l := 0) htop (by omega) (by omega) hcalc
  exact hsound.imp id fun hleaf => ⟨index p.pos, testBit_index p.pos, hleaf⟩

/-- A proof for the third of three leaves, which has no sibling on its level. -/
def proofC : Proof where
  digest := str "XWZ2ZPD4HOV23XRNEJA5PUFMQ7YAZLM6"
  value := str "IN7T55E66E4BYHOLDDN4CHXG565JW5CZ"
  proof := [[], str "6BW2HFBNBAUQJXN4JZU6INZHIPEDVWU4"]
  pos := [1, 0]

theorem verify_sound_one_two :
    (∀ b ∈ [[hashA], [hashB, hashC]], b ≠ []) ∧ proofC.verify hashABC = .ok true ∧
      ∃ commits db, updates hashABC 0 0 [[hashA], [hashB, hashC]] {} = .ok (commits, db) ∧
        ∀ commit, commits[1]? = some commit → ∃ L,
          (str "mt" ++ toDecimal L ++ str "-0") <+: commit.root.rootKey ∧
          (proofC.digest = commit.root.rootHash → 2 = L →
            Collides hashABC (verifyInputs hashABC proofC) (treeInputs hashABC [hashA, hashB, hashC]) ∨
            ∃ seq : ℕ, (∀ i, seq.testBit i = decide (proofC.pos[i]? = some 0)) ∧
              [hashA, hashB, hashC][seq]? = some hashC) := by
  have hne : ∀ b ∈ [[hashA], [hashB, hashC]], b ≠ [] := by simp
  have hverify : proofC.verify hashABC = .ok true := by decide +kernel
  obtain ⟨commits, db, hrun, -, hsound⟩ := verify_sound (H := hashABC) [[hashA], [hashB, hashC]] hne
  refine ⟨hne, hverify, commits, db, hrun, fun commit hcommit => ?_⟩
  obtain ⟨L, hkey, hproof⟩ := hsound 1 commit hcommit
  exact ⟨L, hkey, fun hdigest hL => hproof proofC hdigest hL hL hverify⟩

end LedgerDatabase.Ledgerdb.MerkleTree
