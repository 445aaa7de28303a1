import LedgerDatabase.Common.Equiv.Chunk
import LedgerDatabase.Common.Equiv.Hash
import LedgerDatabase.Qldb.Equiv.Merkle

/-!
# The tree over the blocks

`calculateDigest` has the tree over the blocks so far in the store, with the concatenation of its
children for every node.  A new block changes the nodes on the right edge, and the loop writes those
from the bottom up (`edgePuts`).  What stands left of the edge is complete and is not touched, so
the loop finds the left neighbours where it needs them (`digestLoop_spec`), and the store has the
tree with the new block (`HasTree.append_edge`).

`getProof` reads the siblings from the same nodes.  Along them `Verify` arrives at the root
(`siblings_spec`).
-/

namespace LedgerDatabase.Qldb

open PairTree Chunk
open Ledgerdb.MerkleTree
  (hashPair hashOne hashLevel hashLevel_succ hashLevel_height length_hashLevel lt_length_hashLevel
    merkleRoot height)

variable {H : Bytes → Hash} {xs : List Hash} {l k : ℕ} {a b : Hash}

/-! ### Nodes and levels -/

/-- The node above two. -/
theorem nodes_two (ha : (hashLevel H l xs)[2 * k]? = some a)
    (hb : (hashLevel H l xs)[2 * k + 1]? = some b) :
    (nodes H l xs)[k]? = some (a.bytes ++ b.bytes) := by
  obtain ⟨hlt, hb⟩ := List.getElem?_eq_some_iff.mp hb
  obtain ⟨hlt', ha⟩ := List.getElem?_eq_some_iff.mp ha
  rw [nodes, List.getElem?_map, getElem?_groups _ _ hlt', List.drop_eq_getElem_cons hlt',
    List.drop_eq_getElem_cons hlt, ha, hb, Option.map_some]
  exact congrArg some (nodeBytes_two a b)

/-- The node above the last one of a level, when that has no neighbour. -/
theorem nodes_one (ha : (hashLevel H l xs)[2 * k]? = some a)
    (hlen : (hashLevel H l xs).length = 2 * k + 1) : (nodes H l xs)[k]? = some a.bytes := by
  obtain ⟨hlt, ha⟩ := List.getElem?_eq_some_iff.mp ha
  rw [nodes, List.getElem?_map, getElem?_groups _ _ hlt, List.drop_eq_getElem_cons hlt,
    List.drop_eq_nil_of_le hlen.le, ha, Option.map_some]
  exact congrArg some (nodeBytes_one a)

/-- The hash of a node is its entry on the level above. -/
theorem hashLevel_of_nodes {s : Bytes} (h : (nodes H l xs)[k]? = some s) :
    (hashLevel H (l + 1) xs)[k]? = some (H s) := by
  rw [hashLevel_succ_eq, List.getElem?_map, h]
  rfl

/-- A level ends at the height. -/
theorem eq_height (hne : xs ≠ []) (hl : l ≤ height xs) (hone : (xs.length - 1) / 2 ^ l = 0) :
    l = height xs := by
  apply Nat.le_antisymm hl
  have hlen : xs.length - 1 < 2 ^ l := by
    by_contra hge
    have := Nat.div_pos (Nat.not_lt.mp hge) (Nat.two_pow_pos l)
    omega
  have hpos := List.length_pos_iff.mpr hne
  exact Nat.clog_le_of_le_pow (by omega)

theorem lt_height (hpos : 0 < (xs.length - 1) / 2 ^ l) : l < height xs := by
  apply (Nat.lt_clog_iff_pow_lt (by omega)).mpr
  have hle : 2 ^ l ≤ xs.length - 1 := by
    by_contra hlt
    rw [Nat.div_eq_of_lt (Nat.not_le.mp hlt)] at hpos
    exact absurd hpos (Nat.lt_irrefl 0)
  have := Nat.two_pow_pos l
  omega

/-! ### Siblings -/

/-- The first of two hashes. -/
theorem hashAt_zero (a : Hash) (rest : Bytes) : hashAt (a.bytes ++ rest) 0 = a := by
  have hbytes : readBytes (a.bytes ++ rest) 0 kByteLength = a.bytes := by
    rw [readBytes_of_le (by rw [List.length_append, a.length_bytes]; omega), List.drop_zero,
      List.take_left' a.length_bytes]
  cases a
  unfold hashAt
  congr

/-- The second of two hashes. -/
theorem hashAt_kByteLength (a b : Hash) : hashAt (a.bytes ++ b.bytes) kByteLength = b := by
  have hbytes : readBytes (a.bytes ++ b.bytes) kByteLength kByteLength = b.bytes := by
    rw [readBytes_of_le (by rw [List.length_append, a.length_bytes, b.length_bytes]),
      List.drop_left' a.length_bytes, List.take_of_length_le b.length_bytes.le]
  cases b
  unfold hashAt
  congr

theorem toBase32_ne_nil (h : Hash) : h.toBase32 ≠ [] := by
  intro hnil
  have hlen := h.length_toBase32
  rw [hnil] at hlen
  exact absurd hlen (by decide)

namespace QLProofResult

/-- A round with a sibling on the right. -/
theorem node_right (v s : Hash) : node v s.toBase32 (.ok 1) = .ok (v.bytes ++ s.bytes) := by
  rw [node, if_neg (toBase32_ne_nil s), Hash.fromBase32_toBase32]
  rfl

/-- A round with a sibling on the left. -/
theorem node_left (v s : Hash) : node v s.toBase32 (.ok 0) = .ok (s.bytes ++ v.bytes) := by
  rw [node, if_neg (toBase32_ne_nil s), Hash.fromBase32_toBase32]
  rfl

theorem node_none (v : Hash) (pos : Except Fault ℕ) : node v [] pos = .ok v.bytes := if_pos rfl

/-- Two paths, one after the other. -/
theorem climb_append (H : Bytes → Hash) (pos : List ℕ) (proof' : List Bytes) :
    ∀ (proof : List Bytes) (i : ℕ) (h : Hash),
      climb H pos i (proof ++ proof') h =
        climb H pos i proof h >>= climb H pos (i + proof.length) proof'
  | [], _, _ => rfl
  | s :: proof, i, h => by
    rw [List.cons_append, climb, climb, bind_assoc]
    congr 1
    funext n
    rw [climb_append H pos proof' proof (i + 1) (H n), List.length_cons]
    congr 2
    omega

end QLProofResult

open QLDB (siblings)
open QLProofResult (node climb)

variable {nodeKey : (level i : ℕ) → Bytes} {db : DB}

/-- **The way up**: the siblings of a node lead to the root. -/
theorem siblings_spec (h : HasTree H nodeKey xs db) (hne : xs ≠ []) :
    ∀ (fuel : ℕ) {l i : ℕ} {v : Hash}, (xs.length - 1) / 2 ^ l < fuel → l ≤ height xs →
      (hashLevel H l xs)[i]? = some v →
      ∃ proof pos, siblings db nodeKey fuel l i ((xs.length - 1) / 2 ^ l) = .ok (proof, pos) ∧
        proof.length = pos.length ∧
        ∀ ps qs, climb H (ps ++ pos ++ qs) ps.length proof v = .ok (merkleRoot H xs) := by
  intro fuel
  induction fuel with
  | zero =>
    intro l i v hfuel
    exact absurd hfuel (Nat.not_lt_zero _)
  | succ fuel ih =>
    intro l i v hfuel hl hv
    have hlen := length_hashLevel H (List.length_pos_iff.mpr hne) l
    obtain ⟨hi, -⟩ := List.getElem?_eq_some_iff.mp hv
    rw [siblings]
    by_cases hlast : 0 < (xs.length - 1) / 2 ^ l
    · have hlt := lt_height hlast
      have hhalf : (xs.length - 1) / 2 ^ l / 2 = (xs.length - 1) / 2 ^ (l + 1) := by
        rw [Nat.div_div_eq_div_mul, Nat.pow_succ]
      -- the bytes of the parent, and how a round of `Verify` finds them
      obtain ⟨parent, hparent, hround⟩ : ∃ parent, (nodes H l xs)[i / 2]? = some parent ∧
          node v (if i = (xs.length - 1) / 2 ^ l ∧ (xs.length - 1) / 2 ^ l % 2 = 0 then []
            else (hashAt ((db.getString (nodeKey (l + 1) (i / 2))).getD [])
              (kByteLength * (1 - i % 2))).toBase32) (.ok (1 - i % 2)) = .ok parent := by
        by_cases hlone : i = (xs.length - 1) / 2 ^ l ∧ (xs.length - 1) / 2 ^ l % 2 = 0
        · rw [if_pos hlone]
          refine ⟨v.bytes, nodes_one ?_ ?_, QLProofResult.node_none v _⟩
          · rw [show 2 * (i / 2) = i by omega]
            exact hv
          · omega
        · rw [if_neg hlone]
          rcases Nat.mod_two_eq_zero_or_one i with heven | hodd
          · obtain ⟨s, hs⟩ : ∃ s, (hashLevel H l xs)[i + 1]? = some s :=
              ⟨_, List.getElem?_eq_getElem (by omega)⟩
            have hnode : (nodes H l xs)[i / 2]? = some (v.bytes ++ s.bytes) := by
              apply nodes_two
              · rw [show 2 * (i / 2) = i by omega]
                exact hv
              · rw [show 2 * (i / 2) + 1 = i + 1 by omega]
                exact hs
            refine ⟨_, hnode, ?_⟩
            rw [h l hlt _ _ hnode, Option.getD_some, heven, Nat.mul_one, hashAt_kByteLength]
            exact QLProofResult.node_right v s
          · obtain ⟨s, hs⟩ : ∃ s, (hashLevel H l xs)[i - 1]? = some s :=
              ⟨_, List.getElem?_eq_getElem (by omega)⟩
            have hnode : (nodes H l xs)[i / 2]? = some (s.bytes ++ v.bytes) := by
              apply nodes_two
              · rw [show 2 * (i / 2) = i - 1 by omega]
                exact hs
              · rw [show 2 * (i / 2) + 1 = i by omega]
                exact hv
            refine ⟨_, hnode, ?_⟩
            rw [h l hlt _ _ hnode, Option.getD_some, hodd, Nat.sub_self, Nat.mul_zero, hashAt_zero]
            exact QLProofResult.node_left v s
      have hfuel' : (xs.length - 1) / 2 ^ (l + 1) < fuel := by
        have := Nat.div_lt_self hlast one_lt_two
        omega
      obtain ⟨proof, pos, hrest, hcount, hclimb⟩ := ih hfuel' hlt (hashLevel_of_nodes hparent)
      rw [if_pos hlast]
      simp only [hhalf, hrest, ok_bind]
      refine ⟨_, _, rfl, by rw [List.length_cons, List.length_cons, hcount], fun ps qs => ?_⟩
      have hat : at? (ps ++ (1 - i % 2) :: pos ++ qs) ps.length = .ok (1 - i % 2) := by
        rw [at?, List.append_assoc, List.getElem?_append_right le_rfl, Nat.sub_self]
        rfl
      have hnext := hclimb (ps ++ [1 - i % 2]) qs
      rw [List.append_assoc ps, List.singleton_append, List.length_append,
        List.length_singleton] at hnext
      rw [climb, hat, hround, ok_bind]
      exact hnext
    · rw [if_neg hlast]
      refine ⟨[], [], rfl, rfl, fun ps qs => ?_⟩
      obtain rfl := eq_height hne hl (by omega)
      rw [hashLevel_height H hne, List.getElem?_singleton] at hv
      split_ifs at hv
      rw [climb, Option.some.inj hv]

/-- A tree in the store is still there when the records of its nodes are. -/
theorem HasTree.congr {db' : DB} (h : HasTree H nodeKey xs db)
    (hstring : ∀ l i, db'.getString (nodeKey l i) = db.getString (nodeKey l i)) :
    HasTree H nodeKey xs db' :=
  fun l hl i s hs => (hstring (l + 1) i).trans (h l hl i s hs)

/-! ### The right edge -/

section Edge

variable (H nodeKey)

/-- The nodes above the last leaf on `n` levels from `l` on. -/
def edgePuts (l n : ℕ) (ys : List Hash) : List (Bytes × Bytes) :=
  (List.range' l n).map fun l => (nodeKey (l + 1) ((ys.length - 1) / 2 ^ (l + 1)),
    ((nodes H l ys)[(ys.length - 1) / 2 ^ (l + 1)]?).getD [])

variable {H nodeKey}

theorem mem_edgePuts {l n : ℕ} {ys : List Hash} {w : Bytes × Bytes} :
    w ∈ edgePuts H nodeKey l n ys ↔ ∃ l', l ≤ l' ∧ l' < l + n ∧
      w = (nodeKey (l' + 1) ((ys.length - 1) / 2 ^ (l' + 1)),
        ((nodes H l' ys)[(ys.length - 1) / 2 ^ (l' + 1)]?).getD []) := by
  rw [edgePuts, List.mem_map]
  simp only [List.mem_range'_1, and_assoc, eq_comm]

theorem edgePuts_succ (l n : ℕ) (ys : List Hash) :
    edgePuts H nodeKey l (n + 1) ys =
      (nodeKey (l + 1) ((ys.length - 1) / 2 ^ (l + 1)),
        ((nodes H l ys)[(ys.length - 1) / 2 ^ (l + 1)]?).getD []) ::
        edgePuts H nodeKey (l + 1) n ys := by
  rw [edgePuts, List.range'_succ, List.map_cons, edgePuts]

/-- A node left of the edge is complete, and the same without the last leaf. -/
theorem nodes_left {x : Hash} {l i : ℕ} {s : Bytes} (hi : i < xs.length / 2 ^ (l + 1))
    (hs : (nodes H l (xs ++ [x]))[i]? = some s) : l < height xs ∧ (nodes H l xs)[i]? = some s := by
  have hpow : (i + 1) * 2 ^ (l + 1) ≤ xs.length :=
    (Nat.le_div_iff_mul_le (Nat.two_pow_pos _)).mp hi
  have hsplit : (i + 1) * 2 ^ (l + 1) = (2 * i + 1 + 1) * 2 ^ l := by ring
  have htwo := Nat.two_pow_pos l
  have hright : (2 * i + 1 + 1) * 2 ^ l ≤ xs.length := hsplit ▸ hpow
  have hleft : (2 * i + 1) * 2 ^ l ≤ xs.length :=
    (Nat.mul_le_mul_right _ (Nat.le_succ _)).trans hright
  have hlt : (2 * i + 1) * 2 ^ l < xs.length :=
    lt_of_lt_of_le (Nat.mul_lt_mul_of_pos_right (Nat.lt_succ_self _) htwo) hright
  refine ⟨?_, ?_⟩
  · apply (Nat.lt_clog_iff_pow_lt (by omega)).mpr
    exact lt_of_le_of_lt (Nat.le_mul_of_pos_left _ (Nat.succ_pos _)) hlt
  · obtain ⟨b, hb⟩ : ∃ b, (hashLevel H l xs)[2 * i + 1]? = some b :=
      ⟨_, List.getElem?_eq_getElem ((lt_length_hashLevel H l _ xs).mpr hlt)⟩
    obtain ⟨a, ha⟩ : ∃ a, (hashLevel H l xs)[2 * i]? = some a :=
      ⟨_, List.getElem?_eq_getElem
        (lt_of_lt_of_le (Nat.lt_succ_self _) (List.getElem?_eq_some_iff.mp hb).1.le)⟩
    have ha' : (hashLevel H l (xs ++ [x]))[2 * i]? = some a :=
      (getElem?_level_append _ _ _ _ _ _ hleft).trans ha
    have hb' : (hashLevel H l (xs ++ [x]))[2 * i + 1]? = some b :=
      (getElem?_level_append _ _ _ _ _ _ hright).trans hb
    rw [nodes_two ha hb, ← hs, nodes_two ha' hb']

variable (hkey : ∀ l i l' i', nodeKey l i = nodeKey l' i' → l = l' ∧ i = i')
include hkey

theorem nodup_edgePuts (l n : ℕ) (ys : List Hash) :
    ((edgePuts H nodeKey l n ys).map Prod.fst).Nodup := by
  rw [edgePuts, List.map_map]
  apply List.Nodup.map_on _ List.nodup_range'
  intro l₁ _ l₂ _ heq
  exact Nat.succ_injective (hkey _ _ _ _ heq).1

/-- **The tree with one more leaf** differs on the right edge. -/
theorem HasTree.append_edge {x : Hash} (h : HasTree H nodeKey xs db) :
    HasTree H nodeKey (xs ++ [x])
      (db.putStrings (edgePuts H nodeKey 0 (height (xs ++ [x])) (xs ++ [x]))) := by
  intro l hl i s hs
  have hlast : (xs ++ [x]).length - 1 = xs.length := by
    rw [List.length_append, List.length_singleton, Nat.add_sub_cancel]
  have hi : i ≤ xs.length / 2 ^ (l + 1) := by
    have hlen := (List.getElem?_eq_some_iff.mp (hashLevel_of_nodes hs)).1
    rw [length_hashLevel H (by simp), hlast] at hlen
    exact Nat.lt_succ_iff.mp hlen
  rcases Nat.eq_or_lt_of_le hi with rfl | hlt
  · apply DB.getString_putStrings_of_mem _ _ (nodup_edgePuts hkey _ _ _)
    refine mem_edgePuts.mpr ⟨l, Nat.zero_le l, by omega, ?_⟩
    rw [hlast, hs, Option.getD_some]
  · obtain ⟨hl', hs'⟩ := nodes_left hlt hs
    rw [DB.getString_putStrings_of_not_mem]
    · exact h l hl' i s hs'
    · intro hmem
      obtain ⟨w, hw, heq⟩ := List.mem_map.mp hmem
      obtain ⟨l', -, -, rfl⟩ := mem_edgePuts.mp hw
      obtain ⟨hlevel, hindex⟩ := hkey _ _ _ _ heq
      obtain rfl := Nat.succ_injective hlevel
      rw [hlast] at hindex
      omega

end Edge

theorem length_concat_sub_one (x : Hash) : (xs ++ [x]).length - 1 = xs.length := by
  rw [List.length_append, List.length_singleton, Nat.add_sub_cancel]

/-- A complete node has the bytes of two hashes. -/
theorem length_node_left {x : Hash} {l i : ℕ} {s : Bytes} (hi : i < xs.length / 2 ^ (l + 1))
    (hs : (nodes H l (xs ++ [x]))[i]? = some s) : s.length = kByteLength * 2 := by
  have hlen := length_hashLevel H (show 0 < (xs ++ [x]).length by simp) l
  rw [length_concat_sub_one] at hlen
  have hdiv : xs.length / 2 ^ (l + 1) = xs.length / 2 ^ l / 2 := by
    rw [Nat.div_div_eq_div_mul, Nat.pow_succ]
  obtain ⟨a, ha⟩ : ∃ a, (hashLevel H l (xs ++ [x]))[2 * i]? = some a :=
    ⟨_, List.getElem?_eq_getElem (by omega)⟩
  obtain ⟨b, hb⟩ : ∃ b, (hashLevel H l (xs ++ [x]))[2 * i + 1]? = some b :=
    ⟨_, List.getElem?_eq_getElem (by omega)⟩
  rw [nodes_two ha hb] at hs
  rw [← Option.some.inj hs, List.length_append, a.length_bytes, b.length_bytes, Nat.mul_two]

/-- **The loop of `calculateDigest`** writes the right edge, and ends with the root. -/
theorem digestLoop_spec {name : Bytes} {x prev : Hash}
    (hkey : ∀ l i l' i', QLDB.digestNodeKey name l i = QLDB.digestNodeKey name l' i' →
      l = l' ∧ i = i')
    (hprev : xs ≠ [] → xs.getLast? = some prev) :
    ∀ {fuel l : ℕ} {curr : Hash} {db : DB}, xs.length / 2 ^ l < fuel →
      l ≤ height (xs ++ [x]) → (hashLevel H l (xs ++ [x]))[xs.length / 2 ^ l]? = some curr →
      (∀ l i s, i < xs.length / 2 ^ (l + 1) → (nodes H l (xs ++ [x]))[i]? = some s →
        db.getString (QLDB.digestNodeKey name (l + 1) i) = some s) →
      QLDB.digestLoop H prev name fuel l (xs.length / 2 ^ l) curr db =
        .ok (merkleRoot H (xs ++ [x]), db.putStrings (edgePuts H (QLDB.digestNodeKey name) l
          (height (xs ++ [x]) - l) (xs ++ [x]))) := by
  intro fuel
  induction fuel with
  | zero =>
    intro l curr db hfuel
    exact absurd hfuel (Nat.not_lt_zero _)
  | succ fuel ih =>
    intro l curr db hfuel hl hcurr hread
    have hlast : (xs ++ [x]).length - 1 = xs.length := length_concat_sub_one x
    have hne : xs ++ [x] ≠ [] := by simp
    have hlen := length_hashLevel H (List.length_pos_iff.mpr hne) l
    rw [hlast] at hlen
    rw [QLDB.digestLoop]
    by_cases hpos : 0 < xs.length / 2 ^ l
    · have hlt : l < height (xs ++ [x]) := by
        apply lt_height
        rw [hlast]
        exact hpos
      have hhalf : xs.length / 2 ^ l / 2 = xs.length / 2 ^ (l + 1) := by
        rw [Nat.div_div_eq_div_mul, Nat.pow_succ]
      -- the left neighbour of a node with an odd index
      have hleft : xs.length / 2 ^ l % 2 ≠ 0 →
          (hashLevel H l (xs ++ [x]))[xs.length / 2 ^ l - 1]? =
            some (if l + 1 = 1 then prev
              else H (readBytes ((db.getString (QLDB.digestNodeKey name (l + 1 - 1)
                (xs.length / 2 ^ l - 1))).getD []) 0 (kByteLength * 2))) := by
        intro _
        cases l with
        | zero =>
          rw [Nat.pow_zero, Nat.div_one] at hpos ⊢
          have hlast' := hprev (List.length_pos_iff.mp hpos)
          rw [List.getLast?_eq_getElem?] at hlast'
          rw [if_pos (Nat.zero_add 1), ← hlast']
          exact List.getElem?_append_left (by omega)
        | succ l =>
          have hi : xs.length / 2 ^ (l + 1) - 1 < xs.length / 2 ^ (l + 1) := by omega
          obtain ⟨s, hs⟩ : ∃ s, (nodes H l (xs ++ [x]))[xs.length / 2 ^ (l + 1) - 1]? = some s := by
            refine ⟨_, List.getElem?_eq_getElem ?_⟩
            have hmap := congrArg List.length (hashLevel_succ_eq H l (xs ++ [x]))
            rw [List.length_map] at hmap
            omega
          rw [if_neg (by omega), Nat.add_sub_cancel, hread l _ s hi hs, Option.getD_some,
            readBytes_of_le (by rw [length_node_left hi hs, Nat.zero_add]), List.drop_zero,
            ← length_node_left hi hs, List.take_length]
          exact hashLevel_of_nodes hs
      obtain ⟨parent, hparent, hround⟩ : ∃ parent,
          (nodes H l (xs ++ [x]))[xs.length / 2 ^ (l + 1)]? = some parent ∧
          (if xs.length / 2 ^ l % 2 = 0 then curr.bytes
            else (if l + 1 = 1 then prev
              else H (readBytes ((db.getString (QLDB.digestNodeKey name (l + 1 - 1)
                (xs.length / 2 ^ l - 1))).getD []) 0 (kByteLength * 2))).bytes ++ curr.bytes) =
            parent := by
        by_cases heven : xs.length / 2 ^ l % 2 = 0
        · rw [if_pos heven]
          refine ⟨curr.bytes, nodes_one ?_ (by omega), rfl⟩
          rw [show 2 * (xs.length / 2 ^ (l + 1)) = xs.length / 2 ^ l by omega]
          exact hcurr
        · rw [if_neg heven]
          refine ⟨_, nodes_two ?_ ?_, rfl⟩
          · rw [show 2 * (xs.length / 2 ^ (l + 1)) = xs.length / 2 ^ l - 1 by omega]
            exact hleft heven
          · rw [show 2 * (xs.length / 2 ^ (l + 1)) + 1 = xs.length / 2 ^ l by omega]
            exact hcurr
      have hfuel' : xs.length / 2 ^ (l + 1) < fuel := by
        have := Nat.div_lt_self hpos one_lt_two
        omega
      have hread' : ∀ l' i s, i < xs.length / 2 ^ (l' + 1) →
          (nodes H l' (xs ++ [x]))[i]? = some s →
          (db.putString (QLDB.digestNodeKey name (l + 1) (xs.length / 2 ^ (l + 1))) parent).getString
            (QLDB.digestNodeKey name (l' + 1) i) = some s := by
        intro l' i s hi hs
        rw [DB.getString_putString, if_neg]
        · exact hread l' i s hi hs
        · intro heq
          obtain ⟨hlevel, hindex⟩ := hkey _ _ _ _ heq
          rw [Nat.succ_injective hlevel] at hi
          omega
      rw [if_pos hpos]
      simp only [hround, hhalf]
      rw [ih hfuel' hlt (hashLevel_of_nodes hparent) hread',
        show height (xs ++ [x]) - l = height (xs ++ [x]) - (l + 1) + 1 by omega, edgePuts_succ, hlast,
        hparent]
      rfl
    · rw [if_neg hpos]
      have hzero : ((xs ++ [x]).length - 1) / 2 ^ l = 0 := by
        rw [hlast]
        exact Nat.eq_zero_of_not_pos hpos
      obtain rfl := eq_height hne hl hzero
      rw [hashLevel_height H hne, List.getElem?_singleton] at hcurr
      split_ifs at hcurr
      rw [Nat.sub_self, Option.some.inj hcurr]
      rfl

end LedgerDatabase.Qldb
