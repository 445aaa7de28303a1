import LedgerDatabase.Common.Equiv.Bytes
import LedgerDatabase.Common.Equiv.StdMap
import LedgerDatabase.Ledgerdb.Skiplist

/-!
# Where `SkipList` writes

`insert_writes`: an insertion only adds records of its list.  `insert_adds`: their keys start with the
given prefix.
-/

namespace LedgerDatabase.Ledgerdb.SkipList

/-- A store after some writes to records with a prefix. -/
def Adds (pre : Bytes) (db db' : DB) : Prop :=
  ∃ ws, db' = { db with rocks := ws ++ db.rocks } ∧ ∀ w ∈ ws, pre <+: w.1

theorem adds_putString {pre key : Bytes} (db : DB) (val : Bytes) (h : pre <+: key) :
    Adds pre db (db.putString key val) :=
  ⟨[(key, val)], rfl, fun w hw => by rw [List.mem_singleton.mp hw]; exact h⟩

theorem Adds.refl (pre : Bytes) (db : DB) : Adds pre db db :=
  ⟨[], rfl, fun _ hw => absurd hw List.not_mem_nil⟩

theorem Adds.trans {pre : Bytes} {db db' db'' : DB} (h : Adds pre db db') (h' : Adds pre db' db'') :
    Adds pre db db'' := by
  obtain ⟨ws, rfl, hws⟩ := h
  obtain ⟨ws', rfl, hws'⟩ := h'
  refine ⟨ws' ++ ws, by simp, fun w hw => ?_⟩
  rcases List.mem_append.mp hw with hw | hw
  · exact hws' w hw
  · exact hws w hw

theorem prefix_nodeKey (pre : Bytes) (key : ℤ) : pre <+: nodeKey pre key := by
  rw [nodeKey, List.append_assoc]
  exact List.prefix_append _ _

/-- The keys of the records of a list. -/
def OwnKey (pre key : Bytes) : Prop := key = pre ++ str "|head" ∨ ∃ k, key = nodeKey pre k

theorem OwnKey.isPrefix {pre key : Bytes} (h : OwnKey pre key) : pre <+: key := by
  rcases h with rfl | ⟨k, rfl⟩
  · exact List.prefix_append _ _
  · exact prefix_nodeKey pre k

/-- A store after some writes to records of a list. -/
def Writes (pre : Bytes) (db db' : DB) : Prop :=
  ∃ ws, db' = { db with rocks := ws ++ db.rocks } ∧ ∀ w ∈ ws, OwnKey pre w.1

theorem Writes.refl (pre : Bytes) (db : DB) : Writes pre db db :=
  ⟨[], rfl, fun _ hw => absurd hw List.not_mem_nil⟩

/-- Another write. -/
theorem Writes.putString {pre key : Bytes} {db db' : DB} (h : Writes pre db db')
    (hkey : OwnKey pre key) (val : Bytes) : Writes pre db (db'.putString key val) := by
  obtain ⟨ws, rfl, hws⟩ := h
  refine ⟨(key, val) :: ws, rfl, fun w hw => ?_⟩
  rcases List.mem_cons.mp hw with rfl | hw
  · exact hkey
  · exact hws w hw

theorem Writes.adds {pre : Bytes} {db db' : DB} (h : Writes pre db db') : Adds pre db db' := by
  obtain ⟨ws, hdb, hws⟩ := h
  exact ⟨ws, hdb, fun w hw => (hws w hw).isPrefix⟩

/-- A cursor stands on a record of the list, and so do the nodes to write. -/
structure Inside (pre : Bytes) (cur : Cursor) : Prop where
  fullkey : OwnKey pre cur.fullkey
  update : ∀ e ∈ cur.update, OwnKey pre e.1

theorem Inside.advance {db : DB} {pre : Bytes} {searchKey : ℤ} {i fuel : ℕ} {cur cur' : Cursor}
    (h : Inside pre cur) (hrun : advance db pre searchKey i fuel cur = .ok cur') :
    Inside pre cur' := by
  induction fuel generalizing cur with
  | zero => cases hrun
  | succ fuel ih =>
    rw [SkipList.advance] at hrun
    obtain ⟨next, -, hrun⟩ := bind_eq_ok_iff.mp hrun
    split_ifs at hrun
    · -- the next node is taken from `update` or from the store
      simp only at hrun
      split at hrun
      · apply ih _ hrun
        exact ⟨Or.inr ⟨next, rfl⟩, h.update⟩
      · obtain ⟨head, -, hrun⟩ := bind_eq_ok_iff.mp hrun
        apply ih _ hrun
        exact ⟨Or.inr ⟨next, rfl⟩, h.update⟩
    · obtain rfl := Except.ok.inj hrun
      exact h

theorem Inside.insertLevels {db : DB} {pre : Bytes} {searchKey : ℤ} {level : ℕ} {cur cur' : Cursor}
    (h : Inside pre cur) (hrun : insertLevels db pre searchKey level cur = .ok cur') :
    Inside pre cur' := by
  induction level generalizing cur with
  | zero =>
    obtain rfl := Except.ok.inj hrun
    exact h
  | succ i ih =>
    rw [SkipList.insertLevels] at hrun
    obtain ⟨cur₁, hadvance, hrun⟩ := bind_eq_ok_iff.mp hrun
    obtain ⟨next, -, hrun⟩ := bind_eq_ok_iff.mp hrun
    have h₁ := h.advance hadvance
    simp only at hrun
    apply ih _ hrun
    refine ⟨h₁.fullkey, fun e he => ?_⟩
    rcases StdMap.mem_assign he with rfl | he
    · exact h₁.fullkey
    · exact h₁.update e he

theorem Writes.foldl {pre : Bytes} {db db' : DB} (h : Writes pre db db') (update : StdMap SkipNode)
    (hupdate : ∀ e ∈ update, OwnKey pre e.1) :
    Writes pre db (update.foldl (fun db e => db.putString e.1 e.2.toBytes) db') := by
  induction update generalizing db' with
  | nil => exact h
  | cons e update ih =>
    apply ih (h.putString (hupdate e List.mem_cons_self) e.2.toBytes)
    exact fun e he => hupdate e (List.mem_cons_of_mem _ he)

/-- **`insert`** only adds records of its list. -/
theorem insert_writes {db db' : DB} {pre : Bytes} {searchKey : ℤ} {newValue : Bytes}
    {coins : List Bool} (h : insert db pre searchKey newValue coins = .ok db') :
    Writes pre db db' := by
  have hnode : OwnKey pre (nodeKey pre searchKey) := Or.inr ⟨searchKey, rfl⟩
  unfold insert at h
  simp only at h
  split_ifs at h
  · obtain rfl := Except.ok.inj h
    exact (Writes.refl pre db).putString (Or.inl rfl) _
  · obtain ⟨x, -, h⟩ := bind_eq_ok_iff.mp h
    split_ifs at h
    · obtain ⟨skipnode, -, h⟩ := bind_eq_ok_iff.mp h
      obtain rfl := Except.ok.inj h
      exact (Writes.refl pre db).putString hnode _
    · obtain ⟨head, -, h⟩ := bind_eq_ok_iff.mp h
      obtain ⟨cur, hlevels, h⟩ := bind_eq_ok_iff.mp h
      obtain rfl := Except.ok.inj h
      have hinside : Inside pre cur :=
        Inside.insertLevels ⟨Or.inl rfl, fun _ he => absurd he List.not_mem_nil⟩ hlevels
      exact ((Writes.refl pre db).foldl cur.update hinside.update).putString hnode _

/-- The keys of these records start with the prefix. -/
theorem insert_adds {db db' : DB} {pre : Bytes} {searchKey : ℤ} {newValue : Bytes}
    {coins : List Bool} (h : insert db pre searchKey newValue coins = .ok db') :
    Adds pre db db' :=
  (insert_writes h).adds

end LedgerDatabase.Ledgerdb.SkipList
