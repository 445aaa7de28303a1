import LedgerDatabase.Ledgerdb.Equiv.Mpt.History
import LedgerDatabase.Ledgerdb.Equiv.Skiplist
import LedgerDatabase.Ledgerdb.Equiv.Types

/-!
# The records of a ledger in the store

A ledger keeps five kinds of textual records, told apart by their first letter, and the nodes of
its tries under their hashes (`TextKey`, `ChunkWrite`).  `HashOk H S` is what the ledger relies on:
no two chunks of `S` have the same hash, and no hash of one is the key of a textual record.
-/

namespace LedgerDatabase.Ledgerdb.LedgerDB

open Mpt MerkleTree

/-! ### Keys -/

/-- The key of a textual record. -/
inductive TextKey : Bytes → Prop
  | ledger (i : ℕ) : TextKey (ledgerKey i)
  | commit (c : ℕ) : TextKey (commitKey (toDecimal c))
  | digest : TextKey (str "digest")
  | merkle (l j : ℕ) (c : Option ℕ) : TextKey (keyOf l j c)
  | skiplist {key : Bytes} (h : str "skiplist_" <+: key) : TextKey key

/-- Chunks have their own hashes, which are not keys of textual records. -/
structure HashOk (H : Bytes → Hash) (S : Set Bytes) : Prop where
  inj : Set.InjOn H S
  text : ∀ c ∈ S, ¬ TextKey (H c).bytes
  nil : enc H .nil ∈ S

theorem head?_ledgerKey (i : ℕ) : (ledgerKey i).head? = some 108 := rfl

theorem head?_commitKey (c : Bytes) : (commitKey c).head? = some 99 := rfl

theorem head?_digest : (str "digest").head? = some 100 := rfl

theorem head?_keyOf (l j : ℕ) (c : Option ℕ) : (keyOf l j c).head? = some 109 := by
  cases c <;> rfl

theorem head?_skiplist {key : Bytes} (h : str "skiplist_" <+: key) : key.head? = some 115 := by
  obtain ⟨rest, rfl⟩ := h
  rfl

theorem ledgerKey_inj {i j : ℕ} (h : ledgerKey i = ledgerKey j) : i = j :=
  toDecimal_injective (List.append_cancel_left h)

theorem commitKey_inj {c c' : ℕ} (h : commitKey (toDecimal c) = commitKey (toDecimal c')) :
    c = c' :=
  toDecimal_injective (List.append_cancel_left h)

theorem ne_of_head? {k k' : Bytes} {a b : UInt8} (h : k.head? = some a) (h' : k'.head? = some b)
    (hab : a ≠ b) : k ≠ k' := by
  rintro rfl
  exact hab (Option.some.inj (h.symm.trans h'))

/-! ### Writes -/

/-- A node of a trie under its hash. -/
def ChunkWrite (H : Bytes → Hash) (S : Set Bytes) (w : Bytes × Bytes) : Prop :=
  ∃ c ∈ S, c ≠ enc H .nil ∧ w = ((H c).bytes, c)

/-- A write while `count` blocks are stored, and commits below `c` cover `n` of them. -/
inductive Write (H : Bytes → Hash) (S : Set Bytes) (count n c : ℕ) (w : Bytes × Bytes) : Prop
  | ledger (i : ℕ) (hi : count ≤ i) (h : w.1 = ledgerKey i)
  | skiplist (h : str "skiplist_" <+: w.1)
  | node (xs : List Hash) (h : NodeWrite H xs n c w)
  | chunk (h : ChunkWrite H S w)
  | commit (h : w.1 = commitKey (toDecimal c))
  | digest (h : w.1 = str "digest")

section

variable {H : Bytes → Hash} {S : Set Bytes} {count n c : ℕ} {w : Bytes × Bytes} {db : DB}
  {ws : List (Bytes × Bytes)}

theorem textKey_of_nodeWrite {xs : List Hash} (h : NodeWrite H xs n c w) : TextKey w.1 := by
  obtain ⟨l, j, v, -, -, rfl⟩ := h
  exact .merkle l j _

/-- A write of a chunk, or of a textual record. -/
theorem Write.chunk_or_text (h : Write H S count n c w) : ChunkWrite H S w ∨ TextKey w.1 := by
  cases h with
  | ledger i _ h => exact Or.inr (h ▸ .ledger i)
  | skiplist h => exact Or.inr (.skiplist h)
  | node xs h => exact Or.inr (textKey_of_nodeWrite h)
  | chunk h => exact Or.inl h
  | commit h => exact Or.inr (h ▸ .commit c)
  | digest h => exact Or.inr (h ▸ .digest)

/-- A textual key is not the key of a chunk. -/
theorem ChunkWrite.ne_text (hH : HashOk H S) (h : ChunkWrite H S w) {k : Bytes} (hk : TextKey k) :
    w.1 ≠ k := by
  obtain ⟨ch, hch, -, rfl⟩ := h
  rintro rfl
  exact hH.text ch hch hk

theorem Write.ne_ledgerKey (hH : HashOk H S) (h : Write H S count n c w) {i : ℕ} (hi : i < count) :
    w.1 ≠ ledgerKey i := by
  cases h with
  | ledger j hj h =>
    rw [h]
    intro heq
    have := ledgerKey_inj heq
    omega
  | skiplist h => exact ne_of_head? (head?_skiplist h) (head?_ledgerKey i) (by decide)
  | node xs h =>
    obtain ⟨l, j, v, -, -, rfl⟩ := h
    exact ne_of_head? (head?_keyOf l j _) (head?_ledgerKey i) (by decide)
  | chunk h => exact h.ne_text hH (.ledger i)
  | commit h =>
    rw [h]
    exact ne_of_head? (head?_commitKey _) (head?_ledgerKey i) (by decide)
  | digest h =>
    rw [h]
    exact ne_of_head? head?_digest (head?_ledgerKey i) (by decide)

theorem Write.ne_commitKey (hH : HashOk H S) (h : Write H S count n c w) {c' : ℕ} (hc : c' ≠ c) :
    w.1 ≠ commitKey (toDecimal c') := by
  cases h with
  | ledger j hj h =>
    rw [h]
    exact ne_of_head? (head?_ledgerKey j) (head?_commitKey _) (by decide)
  | skiplist h => exact ne_of_head? (head?_skiplist h) (head?_commitKey _) (by decide)
  | node xs h =>
    obtain ⟨l, j, v, -, -, rfl⟩ := h
    exact ne_of_head? (head?_keyOf l j _) (head?_commitKey _) (by decide)
  | chunk h => exact h.ne_text hH (.commit c')
  | commit h =>
    rw [h]
    exact fun heq => hc (commitKey_inj heq).symm
  | digest h =>
    rw [h]
    exact ne_of_head? head?_digest (head?_commitKey _) (by decide)

/-- Nodes of the tree of an earlier commit are not written again. -/
theorem Write.ne_storeKey (hH : HashOk H S) (h : Write H S count n c w) {ys : List Hash}
    {c' l j : ℕ} {v : Hash} (hlen : ys.length ≤ n) (hc : c' ≠ c)
    (hv : (hashLevel H l ys)[j]? = some v) : w.1 ≠ storeKey ys.length c' l j := by
  cases h with
  | ledger i hi h =>
    rw [h]
    exact ne_of_head? (head?_ledgerKey i) (head?_keyOf l j _) (by decide)
  | skiplist h => exact ne_of_head? (head?_skiplist h) (head?_keyOf l j _) (by decide)
  | node xs h => exact h.ne_storeKey H hlen hc hv
  | chunk h => exact h.ne_text hH (.merkle l j _)
  | commit h =>
    rw [h]
    exact ne_of_head? (head?_commitKey _) (head?_keyOf l j _) (by decide)
  | digest h =>
    rw [h]
    exact ne_of_head? head?_digest (head?_keyOf l j _) (by decide)

/-! ### What writes leave as it is -/

theorem getString_log {k : Bytes} (h : ∀ w ∈ ws, w.1 ≠ k) :
    DB.getString { db with rocks := ws ++ db.rocks } k = db.getString k :=
  PutLog.lookup_append_of_not_mem fun _ hv => h _ hv rfl

/-- Writing chunks and textual records keeps the store content-addressed. -/
theorem storeOk_log (hH : HashOk H S) (h : StoreOk H S db)
    (hws : ∀ w ∈ ws, ChunkWrite H S w ∨ TextKey w.1) :
    StoreOk H S { db with rocks := ws ++ db.rocks } := by
  refine ⟨fun ch hch v hv => ?_, h.cache⟩
  rcases List.mem_append.mp hv with hv | hv
  · rcases hws _ hv with ⟨ch', hch', hne, heq⟩ | htext
    · obtain ⟨hkey, rfl⟩ := Prod.mk.inj heq
      obtain rfl := hH.inj hch hch' (hash_eq_of_bytes_eq hkey)
      exact ⟨rfl, hne⟩
    · exact absurd htext (hH.text ch hch)
  · exact h.rocks ch hch v hv

end

end LedgerDatabase.Ledgerdb.LedgerDB
