import LedgerDatabase.Common.Equiv.Bytes
import LedgerDatabase.Ledgerdb.Types

/-!
# The strings of blocks

`BlockData::ToString` writes a slash in front of every pair of a key and a value, and
`BlockData(std::string)` yields a pair for every piece between slashes, the empty one in front
included.  So no block is parsed back (`ofString_ne`).  The string itself determines the block only
when that is one pair without bars (`toBytes_unique_iff`): with a second pair, the bars and slashes
can as well belong to the first value.
-/

namespace LedgerDatabase.Ledgerdb.BlockData

variable {key val : Bytes} {keys vals keys' vals' : List Bytes} {s : Bytes}

/-! ### Counting delimiters -/

theorem length_splitBy (s : Bytes) (delim : UInt8) :
    (splitBy s delim).length = s.count delim + 1 := by
  unfold splitBy
  induction s with
  | nil => rfl
  | cons b s ih =>
    rw [List.splitOn_cons_eq_if_modifyHead]
    by_cases hb : b = delim
    · subst hb
      rw [if_pos BEq.rfl, List.length_cons, ih, List.count_cons_self]
    · rw [if_neg (by simpa using hb), List.length_modifyHead, ih, List.count_cons_of_ne hb]

/-! ### The string of a block -/

/-- The text of some pairs. -/
def text (keys vals : List Bytes) : Bytes :=
  (keys.zip vals).flatMap fun e => 47 :: (e.1 ++ 124 :: e.2)

theorem text_cons : text (key :: keys) (val :: vals) =
    47 :: (key ++ 124 :: (val ++ text keys vals)) := by
  simp [text]

theorem text_singleton : text [key] [val] = 47 :: (key ++ 124 :: val) := by
  rw [text_cons, text, List.zip_nil_left, List.flatMap_nil, List.append_nil]

theorem join_eq (hlen : vals.length = keys.length) : join keys vals = .ok (text keys vals) := by
  induction keys generalizing vals with
  | nil => rw [join, text, List.zip_nil_left, List.flatMap_nil]
  | cons key keys ih =>
    cases vals with
    | nil => exact absurd hlen (by simp)
    | cons val vals =>
      rw [join, ih (Nat.succ.inj hlen), ok_bind, text_cons]
      simp [show str "/" = [47] from rfl, show str "|" = [124] from rfl]
      rfl

/-- A block with pairs has a string. -/
theorem toBytes_eq (hne : keys ≠ []) (hlen : vals.length = keys.length) :
    toBytes ⟨keys, vals⟩ = .ok (text keys vals) := by
  have hpos : ¬ (text keys vals).length < 1 := by
    cases keys with
    | nil => exact absurd rfl hne
    | cons key keys =>
      cases vals with
      | nil => exact absurd hlen (by simp)
      | cons val vals =>
        rw [text_cons, List.length_cons]
        omega
  rw [toBytes, join_eq hlen, ok_bind, substrFrom, if_neg hpos, ok_bind]
  rfl

/-- There are at least as many slashes and bars as pairs. -/
theorem length_le_count (hlen : vals.length = keys.length) (delim : UInt8)
    (hdelim : delim = 47 ∨ delim = 124) : keys.length ≤ (text keys vals).count delim := by
  induction keys generalizing vals with
  | nil => exact Nat.zero_le _
  | cons key keys ih =>
    cases vals with
    | nil => exact absurd hlen (by simp)
    | cons val vals =>
      have hrest := ih (Nat.succ.inj hlen)
      rw [text_cons, List.length_cons, List.count_cons, List.count_append, List.count_cons,
        List.count_append]
      rcases hdelim with rfl | rfl
      all_goals simp only [beq_self_eq_true, if_true]
      all_goals omega

/-! ### Parsing -/

/-- There is a pair for every piece between slashes. -/
theorem length_of_ofString {b : BlockData} (h : ofString s = .ok b) :
    b.keys.length = s.count 47 + 1 := by
  obtain ⟨kvs, hkvs, hb⟩ := bind_eq_ok_iff.mp h
  cases hb
  rw [List.length_map, ← length_splitBy]
  have hlength : ∀ {l : List Bytes} {f : Bytes → Except Fault (Bytes × Bytes)}
      {r : List (Bytes × Bytes)}, l.mapM f = .ok r → r.length = l.length := by
    intro l
    induction l with
    | nil =>
      intro f r hr
      cases hr
      rfl
    | cons a l ih =>
      intro f r hr
      rw [List.mapM_cons] at hr
      obtain ⟨x, -, hr⟩ := bind_eq_ok_iff.mp hr
      obtain ⟨r, hl, hr⟩ := bind_eq_ok_iff.mp hr
      cases hr
      rw [List.length_cons, List.length_cons, ih hl]
  exact hlength hkvs

/-- **No block is parsed back.** -/
theorem ofString_ne (hlen : vals.length = keys.length) :
    ofString (text keys vals) ≠ .ok ⟨keys, vals⟩ := by
  intro h
  have hpieces := length_of_ofString h
  have hslashes := length_le_count hlen 47 (Or.inl rfl)
  simp only at hpieces
  omega

/-! ### Different blocks with the same string -/

/-- The string determines the block. -/
def Determines (keys vals : List Bytes) : Prop :=
  ∀ keys' vals' : List Bytes, keys' ≠ [] → vals'.length = keys'.length →
    toBytes ⟨keys', vals'⟩ = toBytes ⟨keys, vals⟩ → keys' = keys ∧ vals' = vals

theorem Determines.eq (h : Determines keys vals) (hne : keys ≠ [])
    (hlen : vals.length = keys.length) (keys' vals' : List Bytes) (hne' : keys' ≠ []) (hlen' : vals'.length = keys'.length)
    (htext : text keys' vals' = text keys vals) : keys' = keys ∧ vals' = vals := by
  apply h keys' vals' hne' hlen'
  rw [toBytes_eq hne hlen, toBytes_eq hne' hlen', htext]

/-- One bar separates the key from the value. -/
theorem determines_singleton (hkey : (124 : UInt8) ∉ key) (hval : (124 : UInt8) ∉ val) :
    Determines [key] [val] := by
  intro keys' vals' hne' hlen' h
  have hone : toBytes ⟨[key], [val]⟩ = .ok (text [key] [val]) :=
    toBytes_eq (List.cons_ne_nil _ _) rfl
  rw [toBytes_eq hne' hlen', hone, Except.ok.injEq] at h
  have hbars : (text [key] [val]).count 124 = 1 := by
    rw [text_singleton, List.count_cons, List.count_append, List.count_cons,
      List.count_eq_zero.mpr hkey, List.count_eq_zero.mpr hval]
    rfl
  have hle := length_le_count hlen' 124 (Or.inr rfl)
  rw [h, hbars] at hle
  -- so the other block has one pair as well, and its bar is the same
  obtain ⟨key', rfl⟩ : ∃ key', keys' = [key'] := by
    apply List.length_eq_one_iff.mp
    have := List.length_pos_iff.mpr hne'
    omega
  obtain ⟨val', rfl⟩ := List.length_eq_one_iff.mp hlen'
  rw [← h, text_singleton, List.count_cons, List.count_append, List.count_cons] at hbars
  simp only [beq_self_eq_true, if_true, show ((47 : UInt8) == 124) = false from rfl,
    Bool.false_eq_true, if_false] at hbars
  have hkey' : (124 : UInt8) ∉ key' := List.count_eq_zero.mp (by omega)
  have hval' : (124 : UInt8) ∉ val' := List.count_eq_zero.mp (by omega)
  rw [text_singleton, text_singleton, List.cons.injEq] at h
  have hsplit := congrArg (splitBy · 124) h.2
  simp only [splitBy_append] at hsplit
  unfold splitBy at hsplit
  rw [List.splitOn_eq_singleton hkey', List.splitOn_eq_singleton hval',
    List.splitOn_eq_singleton hkey, List.splitOn_eq_singleton hval] at hsplit
  simp only [List.singleton_append, List.cons.injEq, and_true] at hsplit
  rw [hsplit.1, hsplit.2]
  exact ⟨rfl, rfl⟩

/-- **The string determines the block** exactly when it is one pair without bars. -/
theorem determines_iff (hne : keys ≠ []) (hlen : vals.length = keys.length) :
    Determines keys vals ↔
      ∃ key val, keys = [key] ∧ vals = [val] ∧ (124 : UInt8) ∉ key ∧ (124 : UInt8) ∉ val := by
  constructor
  · intro h
    match keys, vals, hne, hlen, h with
    | [key], [val], hne, hlen, h =>
      refine ⟨key, val, rfl, rfl, ?_, ?_⟩
      · -- a bar in the key ends an earlier key
        intro hbar
        obtain ⟨a, b, rfl⟩ := List.append_of_mem hbar
        have heq := h.eq hne hlen [a] [b ++ 124 :: val] (List.cons_ne_nil _ _)
          rfl (by simp [text_singleton])
        simp at heq
      · intro hbar
        obtain ⟨a, b, rfl⟩ := List.append_of_mem hbar
        have heq := h.eq hne hlen [key ++ 124 :: a] [b] (List.cons_ne_nil _ _)
          rfl (by simp [text_singleton])
        simp at heq
    | key :: key₂ :: keys, val :: val₂ :: vals, hne, hlen, h =>
      -- the second pair can belong to the first value
      have heq := h.eq hne hlen (key :: keys) ((val ++ 47 :: (key₂ ++ 124 :: val₂)) :: vals)
        (List.cons_ne_nil _ _) (by simpa using hlen) (by simp [text_cons])
      exact absurd (congrArg List.length heq.1) (by simp)
  · rintro ⟨key, val, rfl, rfl, hkey, hval⟩
    exact determines_singleton hkey hval

/-- **Blocks are stored, but not parsed back**, and two blocks can have the same string. -/
theorem toBytes_ofString (keys vals : List Bytes) (hne : keys ≠ [])
    (hlen : vals.length = keys.length) :
    ∃ s, toBytes ⟨keys, vals⟩ = .ok s ∧ ofString s ≠ .ok ⟨keys, vals⟩ ∧
      (Determines keys vals ↔
        ∃ key val, keys = [key] ∧ vals = [val] ∧ (124 : UInt8) ∉ key ∧ (124 : UInt8) ∉ val) :=
  ⟨_, toBytes_eq hne hlen, ofString_ne hlen, determines_iff hne hlen⟩

/-- The block `/a|b`. -/
theorem toBytes_ofString_one : ∃ s, toBytes ⟨[str "a"], [str "b"]⟩ = .ok s ∧
    ofString s ≠ .ok ⟨[str "a"], [str "b"]⟩ ∧
    (Determines [str "a"] [str "b"] ↔
      ∃ key val, [str "a"] = [key] ∧ [str "b"] = [val] ∧ (124 : UInt8) ∉ key ∧ (124 : UInt8) ∉ val) :=
  toBytes_ofString _ _ (by decide) rfl

/-- It is read as two pairs of `/a` and `b`, and `/a|b/c|d` is the string of two blocks. -/
theorem ofString_one :
    toBytes ⟨[str "a"], [str "b"]⟩ = .ok (str "/a|b") ∧
      ofString (str "/a|b") = .ok ⟨[str "/a", str "/a"], [str "b", str "b"]⟩ ∧
      toBytes ⟨[str "a", str "c"], [str "b", str "d"]⟩ = toBytes ⟨[str "a"], [str "b/c|d"]⟩ := by
  decide +kernel

end LedgerDatabase.Ledgerdb.BlockData
