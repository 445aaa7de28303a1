import LedgerDatabase.Distributed.Transaction

/-!
# Transactions keep their entries in a message

The keys of a hash table are distinct (`UnorderedMap.Keyed`), so a transaction that is sent and
read back has the same entries in some order (`Transaction.ofMessage_serialize`).
-/

namespace LedgerDatabase.Distributed

namespace UnorderedMap

variable {V : Type}

/-- No key occurs twice. -/
def Keyed (m : UnorderedMap V) : Prop := (m.map (·.1)).Nodup

theorem keys_assign (key : Bytes) (val : V) (m : UnorderedMap V) :
    (m.assign key val).map (·.1) =
      if key ∈ m.map (·.1) then m.map (·.1) else m.map (·.1) ++ [key] := by
  induction m with
  | nil => rfl
  | cons e m ih =>
    obtain ⟨k, v⟩ := e
    rw [assign]
    by_cases hk : k = key
    · rw [if_pos hk]
      simp [hk]
    · rw [if_neg hk, List.map_cons, ih]
      have hne : key ≠ k := fun h => hk h.symm
      by_cases hmem : key ∈ m.map (·.1)
      · rw [if_pos hmem, if_pos (by simpa [hne] using hmem)]
        rfl
      · rw [if_neg hmem, if_neg (by simpa [hne] using hmem)]
        rfl

theorem Keyed.assign {m : UnorderedMap V} (h : m.Keyed) (key : Bytes) (val : V) :
    (m.assign key val).Keyed := by
  rw [Keyed, keys_assign]
  split
  · exact h
  · rename_i hmem
    exact List.nodup_append.mpr ⟨h, List.nodup_singleton key, by
      rintro a ha b hb rfl
      rw [List.mem_singleton] at hb
      exact hmem (hb ▸ ha)⟩

theorem assign_of_not_mem {m : UnorderedMap V} {key : Bytes} (h : key ∉ m.map (·.1)) (val : V) :
    m.assign key val = m ++ [(key, val)] := by
  induction m with
  | nil => rfl
  | cons e m ih =>
    obtain ⟨k, v⟩ := e
    rw [List.map_cons, List.mem_cons, not_or] at h
    rw [UnorderedMap.assign, if_neg fun hk => h.1 hk.symm, ih h.2, List.cons_append]

/-- Inserting entries with distinct new keys appends them. -/
theorem foldl_assign {l : List (Bytes × V)} {m : UnorderedMap V}
    (h : ((m ++ l).map (·.1)).Nodup) : l.foldl (fun m e => m.assign e.1 e.2) m = m ++ l := by
  induction l generalizing m with
  | nil => simp
  | cons e l ih =>
    have hnot : e.1 ∉ m.map (·.1) := by
      rw [List.map_append, List.nodup_append] at h
      exact fun hmem => h.2.2 e.1 hmem e.1 (by simp) rfl
    rw [List.foldl_cons, assign_of_not_mem hnot, ih]
    · simp
    · simpa using h

end UnorderedMap

theorem HashOrder.keyed (o : HashOrder) {V : Type} {m : UnorderedMap V} (h : m.Keyed) :
    UnorderedMap.Keyed (o.order m) :=
  ((o.perm m).map _).nodup_iff.mpr h

namespace Transaction

/-- Both sets of a transaction have distinct keys. -/
structure Keyed (txn : Transaction) : Prop where
  readSet : txn.readSet.Keyed
  writeSet : txn.writeSet.Keyed

theorem keyed_empty : ({} : Transaction).Keyed := ⟨List.nodup_nil, List.nodup_nil⟩

theorem Keyed.addReadSet {txn : Transaction} (h : txn.Keyed) (key : Bytes) (t : Timestamp) :
    (txn.addReadSet key t).Keyed :=
  ⟨h.readSet.assign key t, h.writeSet⟩

theorem Keyed.addWriteSet {txn : Transaction} (h : txn.Keyed) (key value : Bytes) :
    (txn.addWriteSet key value).Keyed :=
  ⟨h.readSet, h.writeSet.assign key value⟩

/-- **A transaction that was sent** has its entries in the order of the sender's tables. -/
theorem ofMessage_serialize {txn : Transaction} (h : txn.Keyed) (o : HashOrder) :
    ofMessage (txn.serialize o) = ⟨o.order txn.readSet, o.order txn.writeSet⟩ := by
  rw [ofMessage, serialize]
  congr 1
  · exact UnorderedMap.foldl_assign (by
      simpa [UnorderedMap.Keyed] using o.keyed h.readSet)
  · exact UnorderedMap.foldl_assign (by
      simpa [UnorderedMap.Keyed] using o.keyed h.writeSet)

end Transaction

end LedgerDatabase.Distributed
