import Mathlib

/-!
# Radix trees over a prefix-free set of keys

A radix tree branches on the letters of an alphabet `ι` and shares runs of letters in `short`
nodes.  Keys come from a set `P` in which no key is a prefix of another (an antichain of
`· <+: ·`), as keys with a terminator do; below the letters `key` the remaining keys are
`after P key`.

`WF P Q t` says that `t` is a tree over `P` with values in `Q`.  On such trees `insert` and `remove`
are the operations of a finite map (`get_insert`, `get_remove`), and they keep well-formedness.
-/

/-- A radix tree: nothing, a value, a shared run of letters, or a branch for every letter. -/
inductive RadixTree (ι V : Type)
  | nil
  | value (v : V)
  | short (key : List ι) (child : RadixTree ι V)
  | full (kids : ι → RadixTree ι V)

namespace RadixTree

variable {ι V : Type} [DecidableEq ι]

/-! ### Operations -/

/-- The length of the longest common prefix. -/
def prefixLen : List ι → List ι → ℕ
  | a :: as, b :: bs => if a = b then prefixLen as bs + 1 else 0
  | _, _ => 0

/-- Lookup.  A value ends the search, whatever is left of the key. -/
def get : RadixTree ι V → List ι → Option V
  | nil, _ => none
  | value v, _ => some v
  | short key child, k => if key <+: k then child.get (k.drop key.length) else none
  | full _, [] => none
  | full kids, i :: k => (kids i).get k

/-- A tree below a run of letters, which may be empty. -/
def hang (key : List ι) (child : RadixTree ι V) : RadixTree ι V :=
  if key = [] then child else short key child

/-- The branch where the keys `o :: ko` and `u :: ku` part. -/
def fork (o : ι) (ko : List ι) (child : RadixTree ι V) (u : ι) (ku : List ι) (v : V) :
    RadixTree ι V :=
  full (Function.update (Function.update (fun _ => nil) o (hang ko child)) u (hang ku (value v)))

/-- Insertion.  A `short` node is split where the new key leaves it. -/
def insert : RadixTree ι V → List ι → V → RadixTree ι V
  | nil, k, v => hang k (value v)
  | value _, _, v => value v
  | short key child, k, v =>
    match key.drop (prefixLen k key), k.drop (prefixLen k key) with
    | [], rest => short key (child.insert rest v)
    | o :: ko, u :: ku => hang (k.take (prefixLen k key)) (fork o ko child u ku v)
    | _ :: _, [] => value v
  | full _, [], v => value v
  | full kids, i :: k, v => full (Function.update kids i ((kids i).insert k v))

/-- Removal.  Branches stay, even without values below them. -/
def remove : RadixTree ι V → List ι → RadixTree ι V
  | nil, _ => nil
  | value _, _ => nil
  | short key child, k =>
    if key <+: k then
      if k.length = key.length then nil else short key (child.remove (k.drop key.length))
    else short key child
  | full kids, [] => full kids
  | full kids, i :: k => full (Function.update kids i ((kids i).remove k))

/-- The number of values. -/
def count [Fintype ι] : RadixTree ι V → ℕ
  | nil => 0
  | value _ => 1
  | short _ child => child.count
  | full kids => ∑ i, (kids i).count

/-- The number of nodes on the longest way down. -/
def height [Fintype ι] : RadixTree ι V → ℕ
  | nil => 0
  | value _ => 0
  | short _ child => child.height + 1
  | full kids => (Finset.univ.sup fun i => (kids i).height) + 1

/-! ### Prefixes -/

theorem prefixLen_le_left : ∀ k key : List ι, prefixLen k key ≤ k.length
  | [], _ => by simp [prefixLen]
  | _ :: _, [] => by simp [prefixLen]
  | a :: k, b :: key => by
    rw [prefixLen]
    split_ifs
    · have := prefixLen_le_left k key
      simp only [List.length_cons]
      omega
    · omega

theorem prefixLen_le_right : ∀ k key : List ι, prefixLen k key ≤ key.length
  | [], _ => by simp [prefixLen]
  | _ :: _, [] => by simp [prefixLen]
  | a :: k, b :: key => by
    rw [prefixLen]
    split_ifs
    · have := prefixLen_le_right k key
      simp only [List.length_cons]
      omega
    · omega

/-- Two lists split at their longest common prefix. -/
theorem prefixLen_split : ∀ k key : List ι,
    k.take (prefixLen k key) = key.take (prefixLen k key) ∧
      ∀ o ko u ku, key.drop (prefixLen k key) = o :: ko → k.drop (prefixLen k key) = u :: ku →
        o ≠ u
  | [], key => by simp [prefixLen]
  | _ :: _, [] => by simp [prefixLen]
  | a :: k, b :: key => by
    rw [prefixLen]
    split_ifs with hab
    · obtain ⟨htake, hdrop⟩ := prefixLen_split k key
      subst hab
      exact ⟨by rw [List.take_succ_cons, List.take_succ_cons, htake], by simpa using hdrop⟩
    · refine ⟨rfl, ?_⟩
      rintro o ko u ku ⟨⟩ ⟨⟩
      exact fun h => hab h.symm

theorem prefixLen_append : ∀ key rest : List ι, prefixLen (key ++ rest) key = key.length
  | [], rest => by cases rest <;> simp [prefixLen]
  | a :: key, rest => by simp [prefixLen, prefixLen_append key rest]

theorem prefixLen_eq_length_iff (k key : List ι) : prefixLen k key = key.length ↔ key <+: k := by
  constructor
  · intro h
    have htake := (prefixLen_split k key).1
    rw [h, List.take_length] at htake
    rw [← htake]
    exact List.take_prefix _ _
  · rintro ⟨rest, rfl⟩
    exact prefixLen_append key rest

/-- A key that leaves `key` midway: the common part `p` and the letters where they differ. -/
theorem exists_fork {k key : List ι} (hkey : ¬ key <+: k) (hk : ¬ k <+: key) :
    ∃ p o ko u ku, key = p ++ o :: ko ∧ k = p ++ u :: ku ∧ o ≠ u ∧ prefixLen k key = p.length := by
  obtain ⟨htake, hdrop⟩ := prefixLen_split k key
  have hle := prefixLen_le_left k key
  generalize hm : prefixLen k key = m at htake hdrop hle
  have hkey' : key = k.take m ++ key.drop m := by rw [htake, List.take_append_drop]
  rcases ho : key.drop m with _ | ⟨o, ko⟩
  · refine absurd ?_ hkey
    rw [hkey', ho, List.append_nil]
    exact List.take_prefix _ _
  rcases hu : k.drop m with _ | ⟨u, ku⟩
  · refine absurd ?_ hk
    have hall : k.take m = k := List.take_of_length_le (List.drop_eq_nil_iff.mp hu)
    rw [hkey', hall]
    exact List.prefix_append _ _
  · refine ⟨k.take m, o, ko, u, ku, by rwa [ho] at hkey', ?_, hdrop o ko u ku ho hu, ?_⟩
    · rw [← hu, List.take_append_drop]
    · rw [List.length_take, Nat.min_eq_left hle]

/-! ### The remaining keys -/

/-- The keys that remain below the letters `key`. -/
def after (P : Set (List ι)) (key : List ι) : Set (List ι) := {k | key ++ k ∈ P}

omit [DecidableEq ι] in
theorem mem_after {P : Set (List ι)} {key k : List ι} : k ∈ after P key ↔ key ++ k ∈ P := Iff.rfl

omit [DecidableEq ι] in
theorem drop_mem_after {P : Set (List ι)} {key k : List ι} (hk : k ∈ P) (h : key <+: k) :
    k.drop key.length ∈ after P key := by
  obtain ⟨rest, rfl⟩ := h
  rwa [List.drop_left]

omit [DecidableEq ι] in
theorem antichain_after {P : Set (List ι)} (hP : IsAntichain (· <+: ·) P) (key : List ι) :
    IsAntichain (· <+: ·) (after P key) := by
  intro k hk k' hk' hne hpre
  exact hP hk hk' (fun h => hne (List.append_cancel_left h))
    (List.prefix_append_right_inj key |>.mpr hpre)

omit [DecidableEq ι] in
/-- With the empty key there is no other. -/
theorem nil_not_mem {P : Set (List ι)} (hP : IsAntichain (· <+: ·) P) {k : List ι} (hk : k ∈ P)
    (hne : k ≠ []) : [] ∉ P :=
  fun h => hne (hP.eq h hk List.nil_prefix).symm

/-! ### Well-formed trees -/

/-- A node that can stand below a `short` node. -/
def Closed : RadixTree ι V → Prop
  | value _ => True
  | full _ => True
  | _ => False

/-- Trees over the keys `P` with values in `Q`. -/
def WF (Q : V → Prop) : RadixTree ι V → Set (List ι) → Prop
  | nil, _ => True
  | value v, P => [] ∈ P ∧ Q v
  | short key child, P =>
    key ≠ [] ∧ [] ∉ P ∧ (∃ k ∈ P, key <+: k) ∧ child.Closed ∧ child.WF Q (after P key)
  | full kids, P => [] ∉ P ∧ P.Nonempty ∧ ∀ i, (kids i).WF Q (after P [i])

/-- `p` holds of the tree and of all trees in it. -/
def All (p : RadixTree ι V → Prop) : RadixTree ι V → Prop
  | nil => p nil
  | value v => p (value v)
  | short key child => p (short key child) ∧ child.All p
  | full kids => p (full kids) ∧ ∀ i, (kids i).All p

omit [DecidableEq ι] in
theorem All.imp {p q : RadixTree ι V → Prop} (hpq : ∀ t, p t → q t) {t : RadixTree ι V}
    (h : t.All p) : t.All q := by
  induction t with
  | nil => exact hpq _ h
  | value v => exact hpq _ h
  | short key child ih => exact ⟨hpq _ h.1, ih h.2⟩
  | full kids ih => exact ⟨hpq _ h.1, fun i => ih i (h.2 i)⟩

section Lemmas

variable {Q : V → Prop} {P : Set (List ι)} {k k' : List ι} {v : V}

theorem get_hang (key : List ι) (child : RadixTree ι V) (k : List ι) :
    (hang key child).get k = if key <+: k then child.get (k.drop key.length) else none := by
  unfold hang
  split_ifs with h h'
  · rw [h, List.length_nil, List.drop_zero]
  · exact absurd (h ▸ List.nil_prefix) h'
  · rw [get, if_pos ‹_›]
  · rw [get, if_neg ‹_›]

omit [DecidableEq ι] in
theorem wf_hang {child : RadixTree ι V} {key : List ι} (hnil : key ≠ [] → [] ∉ P)
    (hkey : ∃ k ∈ P, key <+: k) (hclosed : child.Closed) (h : child.WF Q (after P key)) :
    (hang key child).WF Q P := by
  unfold hang
  split_ifs with hne
  · subst hne
    exact h
  · exact ⟨hne, hnil hne, hkey, hclosed, h⟩

omit [DecidableEq ι] in
/-- Below the prefix of a key, a new value. -/
theorem wf_hang_value (hP : IsAntichain (· <+: ·) P) (hk : k ∈ P) (hv : Q v) :
    (hang k (value v)).WF Q P :=
  wf_hang (nil_not_mem hP hk) ⟨k, hk, List.prefix_rfl⟩ trivial
    ⟨by rwa [mem_after, List.append_nil], hv⟩

omit [DecidableEq ι] in
/-- In a value tree the only key is the empty one. -/
theorem eq_nil_of_nil_mem (hP : IsAntichain (· <+: ·) P) (h : [] ∈ P) (hk : k ∈ P) : k = [] :=
  (hP.eq h hk List.nil_prefix).symm

omit [DecidableEq ι] in
/-- A new key that does not follow a `short` node is not a prefix of its letters either. -/
theorem not_prefix_of_exists (hP : IsAntichain (· <+: ·) P) {key : List ι}
    (hkey : ∃ k ∈ P, key <+: k) (hk : k ∈ P) (h : ¬ key <+: k) : ¬ k <+: key := by
  intro hpre
  obtain ⟨k0, hk0, hpre0⟩ := hkey
  have := hP.eq hk hk0 (hpre.trans hpre0)
  exact h (this ▸ hpre0)

/-! ### Insertion -/

theorem insert_short_below {key : List ι} {child : RadixTree ι V} (h : key <+: k) :
    (short key child).insert k v = short key (child.insert (k.drop key.length) v) := by
  have hm := (prefixLen_eq_length_iff k key).mpr h
  have hdrop : key.drop (prefixLen k key) = [] := by rw [hm, List.drop_length]
  rw [insert, hdrop, hm]

theorem insert_short_of_fork {p ko ku : List ι} {o u : ι} {child : RadixTree ι V}
    (hm : prefixLen (p ++ u :: ku) (p ++ o :: ko) = p.length) :
    (short (p ++ o :: ko) child).insert (p ++ u :: ku) v = hang p (fork o ko child u ku v) := by
  have ho : (p ++ o :: ko).drop (prefixLen (p ++ u :: ku) (p ++ o :: ko)) = o :: ko := by
    rw [hm, List.drop_left]
  have hu : (p ++ u :: ku).drop (prefixLen (p ++ u :: ku) (p ++ o :: ko)) = u :: ku := by
    rw [hm, List.drop_left]
  rw [insert, ho, hu]
  simp only [hm, List.take_left]

theorem get_fork {o u : ι} (ko ku : List ι) (child : RadixTree ι V) (hou : o ≠ u) (c : ι)
    (rest : List ι) : (fork o ko child u ku v).get (c :: rest)
      = if c = u then (if ku <+: rest then some v else none)
        else if c = o then (if ko <+: rest then child.get (rest.drop ko.length) else none)
        else none := by
  rw [fork, get]
  by_cases hcu : c = u
  · subst hcu
    rw [Function.update_self, if_pos rfl, get_hang]
    rfl
  rw [Function.update_of_ne hcu, if_neg hcu]
  by_cases hco : c = o
  · subst hco
    rw [Function.update_self, if_pos rfl, get_hang]
  · rw [Function.update_of_ne hco, if_neg hco, get]

/-- After a split both keys are found where they belong. -/
theorem get_hang_fork (hP : IsAntichain (· <+: ·) P) {p ko ku : List ι} {o u : ι} (hou : o ≠ u)
    (child : RadixTree ι V) (hk : p ++ u :: ku ∈ P) (hk' : k' ∈ P) :
    (hang p (fork o ko child u ku v)).get k'
      = if k' = p ++ u :: ku then some v else (short (p ++ o :: ko) child).get k' := by
  rw [get_hang, get]
  by_cases hp : p <+: k'
  · obtain ⟨rest, rfl⟩ := hp
    rw [if_pos (List.prefix_append _ _), List.drop_left]
    cases rest with
    | nil =>
      have hlong : ¬ p ++ o :: ko <+: p ++ [] := fun h => by
        have := h.length_le
        rw [List.length_append, List.length_append, List.length_cons, List.length_nil] at this
        omega
      rw [if_neg (by simp), if_neg hlong]
      rfl
    | cons c rest =>
      have hdrop : (p ++ c :: rest).drop (p ++ o :: ko).length = rest.drop ko.length := by
        simp [List.drop_append]
      simp only [get_fork ko ku child hou, List.append_cancel_left_eq, List.cons.injEq,
        List.prefix_append_right_inj, List.cons_prefix_cons, hdrop]
      by_cases hcu : c = u
      · subst hcu
        simp only [if_true, true_and, hou, false_and, if_false]
        by_cases hku : ku <+: rest
        · have heq := hP.eq hk hk' (by simpa using hku)
          obtain ⟨-, rfl⟩ := List.cons.inj (List.append_cancel_left heq)
          rw [if_pos hku, if_pos rfl]
        · rw [if_neg hku, if_neg]
          rintro rfl
          exact hku List.prefix_rfl
      · simp only [hcu, if_false, false_and]
        by_cases hco : c = o
        · subst hco
          simp only [if_true, true_and]
        · simp only [hco, Ne.symm hco, if_false, false_and]
  · have h1 : k' ≠ p ++ u :: ku := by
      rintro rfl
      exact hp (List.prefix_append _ _)
    have h2 : ¬ p ++ o :: ko <+: k' := fun h => hp ((List.prefix_append _ _).trans h)
    rw [if_neg hp, if_neg h1, if_neg h2]

/-- **Insertion overwrites one key.** -/
theorem get_insert (hP : IsAntichain (· <+: ·) P) {t : RadixTree ι V} (ht : t.WF Q P)
    (hk : k ∈ P) (hk' : k' ∈ P) (v : V) :
    (t.insert k v).get k' = if k' = k then some v else t.get k' := by
  induction t generalizing P k k' with
  | nil =>
    rw [insert, get_hang, get]
    by_cases h : k <+: k'
    · rw [if_pos h, if_pos (hP.eq hk hk' h).symm, get]
    · rw [if_neg h, if_neg]
      rintro rfl
      exact h List.prefix_rfl
  | value w =>
    rw [insert, get, if_pos]
    rw [eq_nil_of_nil_mem hP ht.1 hk, eq_nil_of_nil_mem hP ht.1 hk']
  | short key child ih =>
    obtain ⟨hne, hnil, hex, hclosed, hchild⟩ := ht
    by_cases hpre : key <+: k
    · rw [insert_short_below hpre, get, get]
      by_cases hpre' : key <+: k'
      · have hiff : k'.drop key.length = k.drop key.length ↔ k' = k := by
          obtain ⟨rest, rfl⟩ := hpre
          obtain ⟨rest', rfl⟩ := hpre'
          simp
        rw [if_pos hpre', if_pos hpre', ih (antichain_after hP key) hchild (drop_mem_after hk hpre)
          (drop_mem_after hk' hpre')]
        simp only [hiff]
      · rw [if_neg hpre', if_neg hpre', if_neg]
        rintro rfl
        exact hpre' hpre
    · obtain ⟨p, o, ko, u, ku, rfl, rfl, hou, hm⟩ :=
        exists_fork hpre (not_prefix_of_exists hP hex hk hpre)
      rw [insert_short_of_fork hm, get_hang_fork hP hou child hk hk']
  | full kids ih =>
    obtain ⟨hnil, hex, hkids⟩ := ht
    rcases k with _ | ⟨i, k⟩
    · exact absurd hk hnil
    rcases k' with _ | ⟨i', k'⟩
    · exact absurd hk' hnil
    rw [insert, get, get]
    by_cases hi : i' = i
    · subst hi
      rw [Function.update_self, ih i' (antichain_after hP _) (hkids i') hk hk']
      simp
    · rw [Function.update_of_ne hi, if_neg fun h => hi (List.cons.inj h).1]

theorem wf_fork (hP : IsAntichain (· <+: ·) P) {ko ku : List ι} {o u : ι} {child : RadixTree ι V}
    (hk : u :: ku ∈ P) (hko : ∃ k ∈ after P [o], ko <+: k) (hclosed : child.Closed)
    (hchild : child.WF Q (after P (o :: ko))) (hv : Q v) :
    (fork o ko child u ku v).WF Q P := by
  refine ⟨nil_not_mem hP hk (by simp), ⟨_, hk⟩, fun c => ?_⟩
  by_cases hcu : c = u
  · subst hcu
    rw [Function.update_self]
    exact wf_hang_value (antichain_after hP _) hk hv
  rw [Function.update_of_ne hcu]
  by_cases hco : c = o
  · subst hco
    rw [Function.update_self]
    refine wf_hang (fun hne => ?_) hko hclosed hchild
    obtain ⟨k, hk, hpre⟩ := hko
    refine nil_not_mem (antichain_after hP _) hk ?_
    rintro rfl
    exact hne (List.prefix_nil.mp hpre)
  · rw [Function.update_of_ne hco]
    trivial

theorem closed_insert {t : RadixTree ι V} (ht : t.WF Q P)
    (hclosed : t.Closed) (hk : k ∈ P) (v : V) : (t.insert k v).Closed := by
  cases t with
  | nil => exact hclosed.elim
  | value w => trivial
  | short key child => exact hclosed.elim
  | full kids =>
    rcases k with _ | ⟨i, k⟩
    · exact absurd hk ht.1
    · trivial

/-- Insertion keeps well-formedness. -/
theorem wf_insert (hP : IsAntichain (· <+: ·) P) {t : RadixTree ι V} (ht : t.WF Q P)
    (hk : k ∈ P) (hv : Q v) : (t.insert k v).WF Q P := by
  induction t generalizing P k with
  | nil => exact wf_hang_value hP hk hv
  | value w => exact ⟨ht.1, hv⟩
  | short key child ih =>
    obtain ⟨hne, hnil, hex, hclosed, hchild⟩ := ht
    by_cases hpre : key <+: k
    · rw [insert_short_below hpre]
      have hrest := drop_mem_after hk hpre
      exact ⟨hne, hnil, hex, closed_insert hchild hclosed hrest v,
        ih (antichain_after hP key) hchild hrest⟩
    · have hpre' := not_prefix_of_exists hP hex hk hpre
      obtain ⟨p, o, ko, u, ku, rfl, rfl, hou, hm⟩ := exists_fork hpre hpre'
      obtain ⟨k0, hk0, rest, rfl⟩ := hex
      rw [insert_short_of_fork hm]
      refine wf_hang (fun _ => hnil) ⟨_, hk, List.prefix_append _ _⟩ trivial
        (wf_fork (antichain_after hP p) hk ⟨ko ++ rest, ?_, List.prefix_append _ _⟩ hclosed ?_ hv)
      · simpa [mem_after] using hk0
      · simpa [after] using hchild
  | full kids ih =>
    obtain ⟨hnil, hex, hkids⟩ := ht
    rcases k with _ | ⟨i, k⟩
    · exact absurd hk hnil
    refine ⟨hnil, hex, fun j => ?_⟩
    by_cases hj : j = i
    · subst hj
      rw [Function.update_self]
      exact ih j (antichain_after hP _) (hkids j) hk
    · rw [Function.update_of_ne hj]
      exact hkids j

/-- What holds of all trees in a tree holds of a value inserted into it. -/
theorem all_value_of_insert {p : RadixTree ι V → Prop} {t : RadixTree ι V}
    (hP : IsAntichain (· <+: ·) P) (ht : t.WF Q P) (hk : k ∈ P) (h : (t.insert k v).All p) :
    p (value v) := by
  have hhang : ∀ (key : List ι) (s : RadixTree ι V), (hang key s).All p → s.All p := by
    intro key s hs
    unfold hang at hs
    split_ifs at hs
    · exact hs
    · exact hs.2
  induction t generalizing P k with
  | nil => exact hhang _ _ h
  | value w => exact h
  | short key child ih =>
    obtain ⟨hne, hnil, hex, hclosed, hchild⟩ := ht
    by_cases hpre : key <+: k
    · rw [insert_short_below hpre] at h
      exact ih (antichain_after hP key) hchild (drop_mem_after hk hpre) h.2
    · obtain ⟨p, o, ko, u, ku, rfl, rfl, hou, hm⟩ :=
        exists_fork hpre (not_prefix_of_exists hP hex hk hpre)
      rw [insert_short_of_fork hm] at h
      have hkid := (hhang _ _ h).2 u
      rw [Function.update_self] at hkid
      exact hhang _ _ hkid
  | full kids ih =>
    obtain ⟨hnil, hex, hkids⟩ := ht
    rcases k with _ | ⟨i, k⟩
    · exact absurd hk hnil
    have hkid := h.2 i
    rw [Function.update_self] at hkid
    exact ih i (antichain_after hP _) (hkids i) hk hkid

/-! ### Removal -/

/-- **Removal clears one key.** -/
theorem get_remove (hP : IsAntichain (· <+: ·) P) {t : RadixTree ι V} (ht : t.WF Q P)
    (hk : k ∈ P) (hk' : k' ∈ P) : (t.remove k).get k' = if k' = k then none else t.get k' := by
  induction t generalizing P k k' with
  | nil => simp [remove, get]
  | value w =>
    rw [remove, get, if_pos]
    rw [eq_nil_of_nil_mem hP ht.1 hk, eq_nil_of_nil_mem hP ht.1 hk']
  | short key child ih =>
    obtain ⟨hne, hnil, hex, hclosed, hchild⟩ := ht
    rw [remove]
    by_cases hpre : key <+: k
    · rw [if_pos hpre]
      by_cases hlen : k.length = key.length
      · -- the whole key was matched, so only `k` itself lies below the node
        obtain rfl : key = k := hpre.eq_of_length hlen.symm
        rw [if_pos rfl, get, get]
        by_cases heq : key <+: k'
        · rw [if_pos (hP.eq hk hk' heq).symm]
        · rw [if_neg heq, ite_self]
      · rw [if_neg hlen, get, get]
        by_cases hpre' : key <+: k'
        · have hiff : k'.drop key.length = k.drop key.length ↔ k' = k := by
            obtain ⟨rest, rfl⟩ := hpre
            obtain ⟨rest', rfl⟩ := hpre'
            simp
          rw [if_pos hpre', if_pos hpre', ih (antichain_after hP key) hchild
            (drop_mem_after hk hpre) (drop_mem_after hk' hpre')]
          simp only [hiff]
        · rw [if_neg hpre', if_neg hpre', ite_self]
    · rw [if_neg hpre, get]
      by_cases heq : k' = k
      · rw [if_pos heq, heq, if_neg hpre]
      · rw [if_neg heq]
  | full kids ih =>
    obtain ⟨hnil, hex, hkids⟩ := ht
    rcases k with _ | ⟨i, k⟩
    · exact absurd hk hnil
    rcases k' with _ | ⟨i', k'⟩
    · exact absurd hk' hnil
    rw [remove, get, get]
    by_cases hi : i' = i
    · subst hi
      rw [Function.update_self, ih i' (antichain_after hP _) (hkids i') hk hk']
      simp
    · rw [Function.update_of_ne hi, if_neg fun h => hi (List.cons.inj h).1]

omit [DecidableEq ι] in
/-- Below a `short` node that is not matched to its end there is a branch. -/
theorem exists_full_of_short (hP : IsAntichain (· <+: ·) P) {key : List ι} {child : RadixTree ι V}
    (ht : (short key child).WF Q P) (hk : k ∈ P) (hpre : key <+: k)
    (hlen : k.length ≠ key.length) : ∃ kids, child = full kids := by
  obtain ⟨-, -, -, hclosed, hchild⟩ := ht
  cases child with
  | nil => exact hclosed.elim
  | value w =>
    have hkey : key ∈ P := by simpa [mem_after] using hchild.1
    exact absurd (congrArg List.length (hP.eq hkey hk hpre)).symm hlen
  | short key' child' => exact hclosed.elim
  | full kids => exact ⟨kids, rfl⟩

/-- Removal keeps well-formedness. -/
theorem wf_remove (hP : IsAntichain (· <+: ·) P) {t : RadixTree ι V} (ht : t.WF Q P)
    (hk : k ∈ P) : (t.remove k).WF Q P := by
  induction t generalizing P k with
  | nil => trivial
  | value w => trivial
  | short key child ih =>
    rw [remove]
    split_ifs with hpre hlen
    · trivial
    · obtain ⟨kids, rfl⟩ := exists_full_of_short hP ht hk hpre hlen
      obtain ⟨hne, hnil, hex, hclosed, hchild⟩ := ht
      have hrest := ih (antichain_after hP key) hchild (drop_mem_after hk hpre)
      refine ⟨hne, hnil, hex, ?_, hrest⟩
      cases k.drop key.length <;> trivial
    · exact ht
  | full kids ih =>
    obtain ⟨hnil, hex, hkids⟩ := ht
    rcases k with _ | ⟨i, k⟩
    · exact absurd hk hnil
    refine ⟨hnil, hex, fun j => ?_⟩
    by_cases hj : j = i
    · subst hj
      rw [Function.update_self]
      exact ih j (antichain_after hP _) (hkids j) hk
    · rw [Function.update_of_ne hj]
      exact hkids j

/-- Replacing a child moves its values out and those of the new one in. -/
theorem count_full_update [Fintype ι] (kids : ι → RadixTree ι V) (i : ι) (t : RadixTree ι V) :
    (full (Function.update kids i t)).count + (kids i).count = (full kids).count + t.count := by
  rw [count, count, ← Finset.add_sum_erase _ _ (Finset.mem_univ i),
    ← Finset.add_sum_erase _ (fun j => (kids j).count) (Finset.mem_univ i), Function.update_self]
  have hrest : ∑ j ∈ Finset.univ.erase i, (Function.update kids i t j).count
      = ∑ j ∈ Finset.univ.erase i, (kids j).count :=
    Finset.sum_congr rfl fun j hj => by rw [Function.update_of_ne (Finset.ne_of_mem_erase hj)]
  omega

omit [DecidableEq ι] in
theorem height_kid_lt [Fintype ι] (kids : ι → RadixTree ι V) (i : ι) :
    (kids i).height < (full kids).height :=
  Nat.lt_succ_of_le (Finset.le_sup (f := fun i => (kids i).height) (Finset.mem_univ i))

end Lemmas

end RadixTree
