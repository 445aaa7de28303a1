import LedgerDatabase.Qldb.Equiv.History

/-!
# The names of the records of a ledger

Tips, blocks, digests and nodes of all ledgers stand in one store, and their names are put together
from the name of the ledger and numbers.  For plain names of ledgers they tell the ledger and the
record apart (`Record.key_inj`), and they are none of the names of the indexes (`Plain.apart`).
-/

namespace LedgerDatabase.Qldb.QLDB

open QLBTree (IsName)

/-- A name that has no separator and does not look like a record of another kind. -/
structure Plain (name : Bytes) : Prop where
  noBar : (124 : UInt8) ∉ name
  notCommitted : ¬ str "COMMITTED_" <+: name
  notHistory : ¬ str "HISTORY_" <+: name
  notProof : ¬ str "proof_" <+: name
  notDigest : ¬ str "digest_" <+: name

instance (name : Bytes) : Decidable (Plain name) :=
  decidable_of_iff ((124 : UInt8) ∉ name ∧ ¬ str "COMMITTED_" <+: name ∧ ¬ str "HISTORY_" <+: name ∧
      ¬ str "proof_" <+: name ∧ ¬ str "digest_" <+: name)
    ⟨fun h => ⟨h.1, h.2.1, h.2.2.1, h.2.2.2.1, h.2.2.2.2⟩,
      fun h => ⟨h.noBar, h.notCommitted, h.notHistory, h.notProof, h.notDigest⟩⟩

/-- What is stored for a ledger besides the nodes of the indexes. -/
inductive Record
  | tip
  | block (seqno : ℕ)
  | digest
  | digestNode (level i : ℕ)
  | blockNode (seqno level i : ℕ)
  deriving DecidableEq, Repr

namespace Record

/-- Its name. -/
def key (name : Bytes) : Record → Bytes
  | tip => name
  | block seqno => blockKey name seqno
  | digest => digestKey name
  | digestNode level i => digestNodeKey name level i
  | blockNode seqno level i => blockNodeKey name seqno level i

/-- What stands before the name of the ledger. -/
def pre : Record → Bytes
  | tip | block _ => []
  | digest => str "digest_"
  | digestNode _ _ | blockNode _ _ _ => str "proof_"

/-- The numbers behind the name of the ledger. -/
def numbers : Record → List ℕ
  | tip | digest => []
  | block seqno => [seqno]
  | digestNode level i => [level, i]
  | blockNode seqno level i => [seqno, level, i]

/-- The record with the given parts of a name. -/
def ofParts (pre : Bytes) : List ℕ → Record
  | [] => if pre = [] then tip else digest
  | [seqno] => block seqno
  | [level, i] => digestNode level i
  | seqno :: level :: i :: _ => blockNode seqno level i

theorem ofParts_parts (r : Record) : ofParts r.pre r.numbers = r := by
  cases r <;> rfl

theorem key_eq_intercalate (name : Bytes) (r : Record) :
    r.key name = [124].intercalate ((r.pre ++ name) :: r.numbers.map toDecimal) := by
  cases r <;>
    simp [key, pre, numbers, blockKey, digestKey, digestNodeKey, blockNodeKey, List.intercalate,
      show str "|" = [124] from rfl]

theorem pre_cases (r : Record) : r.pre = [] ∨ r.pre = str "digest_" ∨ r.pre = str "proof_" := by
  cases r with
  | tip | block => exact Or.inl rfl
  | digest => exact Or.inr (Or.inl rfl)
  | digestNode | blockNode => exact Or.inr (Or.inr rfl)

theorem noBar_pre (r : Record) : (124 : UInt8) ∉ r.pre := by
  rcases r.pre_cases with h | h | h <;> rw [h] <;> decide

variable {name name' : Bytes}

/-- A plain name does not begin like a record. -/
theorem append_pre_inj (h : Plain name) (h' : Plain name') {r r' : Record}
    (heq : r.pre ++ name = r'.pre ++ name') : r.pre = r'.pre ∧ name = name' := by
  have hself : ∀ p : Bytes, ∀ n n' : Bytes, p ++ n = p ++ n' → p = p ∧ n = n' :=
    fun p n n' hn => ⟨rfl, List.append_cancel_left hn⟩
  have hhead : str "digest_" ++ name ≠ str "proof_" ++ name' := fun hn => by
    exact absurd (List.cons.inj hn).1 (by decide)
  have hhead' : str "proof_" ++ name ≠ str "digest_" ++ name' := fun hn => by
    exact absurd (List.cons.inj hn).1 (by decide)
  rcases r.pre_cases with hr | hr | hr <;> rcases r'.pre_cases with hr' | hr' | hr' <;>
    rw [hr, hr'] at heq ⊢
  · exact hself _ _ _ heq
  · exact absurd ⟨name', heq.symm⟩ h.notDigest
  · exact absurd ⟨name', heq.symm⟩ h.notProof
  · exact absurd ⟨name, heq⟩ h'.notDigest
  · exact hself _ _ _ heq
  · exact absurd heq hhead
  · exact absurd ⟨name, heq⟩ h'.notProof
  · exact absurd heq hhead'
  · exact hself _ _ _ heq

/-- **A name tells the ledger and the record.** -/
theorem key_inj (h : Plain name) (h' : Plain name') {r r' : Record}
    (heq : r.key name = r'.key name') : name = name' ∧ r = r' := by
  have hbar : ∀ {n : Bytes} (_ : Plain n) (r : Record),
      ∀ p ∈ (r.pre ++ n) :: r.numbers.map toDecimal, (124 : UInt8) ∉ p := by
    intro n hn r p hp
    rcases List.mem_cons.mp hp with rfl | hp
    · rw [List.mem_append, not_or]
      exact ⟨noBar_pre r, hn.noBar⟩
    · obtain ⟨k, -, rfl⟩ := List.mem_map.mp hp
      exact not_mem_toDecimal (by decide) k
  rw [key_eq_intercalate, key_eq_intercalate] at heq
  have hpieces := intercalate_injOn (List.cons_ne_nil _ _) (List.cons_ne_nil _ _) (hbar h r)
    (hbar h' r') heq
  obtain ⟨hhead, hnum⟩ := List.cons.inj hpieces
  obtain ⟨hpre, hname⟩ := append_pre_inj h h' hhead
  have hnumbers := List.map_injective_iff.mpr toDecimal_injective hnum
  refine ⟨hname, ?_⟩
  rw [← ofParts_parts r, hpre, hnumbers, ofParts_parts]

end Record

variable {name : Bytes}

theorem ledgerName_iff {y : Bytes} : LedgerName name y ↔ ∃ r : Record, y = r.key name := by
  constructor
  · intro h
    cases h with
    | tip => exact ⟨.tip, rfl⟩
    | block seqno => exact ⟨.block seqno, rfl⟩
    | digest => exact ⟨.digest, rfl⟩
    | digestNode level i => exact ⟨.digestNode level i, rfl⟩
    | blockNode seqno level i => exact ⟨.blockNode seqno level i, rfl⟩
  · rintro ⟨r, rfl⟩
    cases r with
    | tip => exact LedgerName.tip
    | block seqno => exact LedgerName.block seqno
    | digest => exact LedgerName.digest
    | digestNode level i => exact LedgerName.digestNode level i
    | blockNode seqno level i => exact LedgerName.blockNode seqno level i

/-- The records of two ledgers have different names. -/
theorem Plain.not_ledgerName {name' : Bytes} (h : Plain name) (h' : Plain name') (hne : name ≠ name')
    (r : Record) : ¬ LedgerName name' (r.key name) := by
  intro hmem
  obtain ⟨r', heq⟩ := ledgerName_iff.mp hmem
  exact hne (Record.key_inj h h' heq).1

/-- What begins with a word without separators, and has the rest of a record's name behind the
ledger's, has that word at the beginning of the ledger's name. -/
theorem isPrefix_of_isPrefix_append_bar {p rest : Bytes} (hp : (124 : UInt8) ∉ p)
    (h : p <+: name ++ 124 :: rest) : p <+: name := by
  rcases List.prefix_or_prefix_of_prefix h (List.prefix_append name _) with hpre | ⟨t, ht⟩
  · exact hpre
  · cases t with
    | nil =>
      rw [List.append_nil] at ht
      exact ht ▸ List.prefix_refl _
    | cons b t =>
      obtain ⟨s, hs⟩ := h
      rw [← ht, List.append_assoc] at hs
      have hb := (List.cons.inj (List.append_cancel_left hs)).1
      rw [← ht, hb] at hp
      exact absurd (List.mem_append_right name List.mem_cons_self) hp

/-- The records of a plain ledger are no nodes of an index. -/
theorem Plain.apart (h : Plain name) : Apart name := by
  have hname : ∀ {pre y : Bytes}, IsName pre y → pre <+: y := by
    rintro pre y (rfl | ⟨n, x, rfl⟩)
    · exact List.prefix_append pre _
    · rw [nodeId, List.append_assoc, List.append_assoc]
      exact List.prefix_append pre _
  have hblock : ∀ {pre : Bytes} (seqno : ℕ), (124 : UInt8) ∉ pre → pre <+: blockKey name seqno →
      pre <+: name := by
    intro pre seqno hbar hpre
    rw [blockKey, List.append_assoc] at hpre
    exact isPrefix_of_isPrefix_append_bar hbar hpre
  have hfirst : ∀ {p q s : Bytes} {a b : UInt8}, p.head? = some a → q.head? = some b → a ≠ b →
      ¬ p <+: q ++ s := by
    rintro p q s a b hp hq hab ⟨t, ht⟩
    have heq := congrArg List.head? ht
    rw [List.head?_append, List.head?_append, hp, hq] at heq
    exact hab (Option.some.inj heq)
  intro y hy
  cases hy with
  | tip => exact ⟨fun hn => h.notCommitted (hname hn), fun hn => h.notHistory (hname hn)⟩
  | block seqno =>
    exact ⟨fun hn => h.notCommitted (hblock seqno (by decide) (hname hn)),
      fun hn => h.notHistory (hblock seqno (by decide) (hname hn))⟩
  | digest =>
    exact ⟨fun hn => hfirst (a := 67) (b := 100) rfl rfl (by decide) (hname hn),
      fun hn => hfirst (a := 72) (b := 100) rfl rfl (by decide) (hname hn)⟩
  | digestNode level i =>
    rw [digestNodeKey, List.append_assoc, List.append_assoc, List.append_assoc, List.append_assoc]
    exact ⟨fun hn => hfirst (a := 67) (b := 112) rfl rfl (by decide) (hname hn),
      fun hn => hfirst (a := 72) (b := 112) rfl rfl (by decide) (hname hn)⟩
  | blockNode seqno level i =>
    rw [blockNodeKey]
    simp only [List.append_assoc]
    exact ⟨fun hn => hfirst (a := 67) (b := 112) rfl rfl (by decide) (hname hn),
      fun hn => hfirst (a := 72) (b := 112) rfl rfl (by decide) (hname hn)⟩

end LedgerDatabase.Qldb.QLDB
