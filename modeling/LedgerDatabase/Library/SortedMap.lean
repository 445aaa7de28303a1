import Mathlib.Data.List.Nodup
import Mathlib.Order.Defs.Unbundled
import Mathlib.Tactic.Common

/-!
# Maps in the order of their keys

A map is the list of its entries with strictly increasing keys, which is the order in which an
ordered container iterates over it.  What an operation does is said by which entries the result
has (`mem_assign`, `mem_erase`), and for a map of maps by what holds of the value of
a key: `At`.
-/

/-- The entries of a map, in the order of their keys. -/
structure SortedMap (K V : Type*) [LT K] where
  entries : List (K × V)
  sorted : entries.Pairwise fun e e' => e.1 < e'.1

namespace SortedMap

variable {K V W : Type*} [LT K]

@[ext]
theorem ext {m m' : SortedMap K V} (h : m.entries = m'.entries) : m = m' := by
  cases m
  congr

instance [DecidableEq K] [DecidableEq V] : DecidableEq (SortedMap K V) := fun m m' =>
  decidable_of_iff (m.entries = m'.entries) ⟨ext, congrArg entries⟩

instance : Membership (K × V) (SortedMap K V) := ⟨fun m e => e ∈ m.entries⟩

theorem mem_def {m : SortedMap K V} {e : K × V} : e ∈ m ↔ e ∈ m.entries := Iff.rfl

instance [DecidableEq K] [DecidableEq V] (e : K × V) (m : SortedMap K V) : Decidable (e ∈ m) :=
  inferInstanceAs (Decidable (e ∈ m.entries))

/-- The map without entries. -/
def empty : SortedMap K V := ⟨[], List.Pairwise.nil⟩

instance : Inhabited (SortedMap K V) := ⟨empty⟩

@[simp]
theorem entries_empty : (empty : SortedMap K V).entries = [] := rfl

@[simp]
theorem notMem_empty (e : K × V) : e ∉ (empty : SortedMap K V) := List.not_mem_nil

/-! ### Keys -/

/-- The keys, in their order. -/
def keys (m : SortedMap K V) : List K := m.entries.map (·.1)

theorem mem_keys {m : SortedMap K V} {k : K} : k ∈ m.keys ↔ ∃ v, (k, v) ∈ m := by
  simp [keys, mem_def]

/-- The map with some entries whose keys are some of the keys of `m`, in the same order. -/
def ofSublist (m : SortedMap K V) (entries : List (K × W))
    (h : (entries.map (·.1)).Sublist (m.entries.map (·.1))) : SortedMap K W where
  entries
  sorted := by
    have hkeys : (m.entries.map (·.1)).Pairwise (· < ·) := List.pairwise_map.mpr m.sorted
    exact List.pairwise_map.mp (hkeys.sublist h)

/-- The key `k` has a value, of which `P` holds. -/
def At (m : SortedMap K V) (k : K) (P : V → Prop) : Prop := ∃ v, (k, v) ∈ m ∧ P v

@[simp]
theorem not_at_empty (k : K) (P : V → Prop) : ¬ (empty : SortedMap K V).At k P := by
  simp [At]

theorem at_congr {m : SortedMap K V} {k : K} {P Q : V → Prop} (h : ∀ v, P v ↔ Q v) :
    m.At k P ↔ m.At k Q :=
  exists_congr fun v => and_congr_right fun _ => h v

/-- The map with other values. -/
def mapVal (f : V → W) (m : SortedMap K V) : SortedMap K W where
  entries := m.entries.map fun e => (e.1, f e.2)
  sorted := List.pairwise_map.mpr m.sorted

theorem mem_mapVal {f : V → W} {m : SortedMap K V} {k : K} {w : W} :
    (k, w) ∈ m.mapVal f ↔ ∃ v, (k, v) ∈ m ∧ f v = w := by
  simp [mem_def, mapVal]

theorem at_mapVal {f : V → W} {m : SortedMap K V} {k : K} {P : W → Prop} :
    (m.mapVal f).At k P ↔ m.At k fun v => P (f v) := by
  simp only [At, mem_mapVal]
  constructor
  · rintro ⟨_, ⟨v, hv, rfl⟩, hP⟩
    exact ⟨v, hv, hP⟩
  · rintro ⟨v, hv, hP⟩
    exact ⟨_, ⟨v, hv, rfl⟩, hP⟩

section Order

variable [IsStrictTotalOrder K (· < ·)]

theorem keys_nodup (m : SortedMap K V) : m.keys.Nodup :=
  List.pairwise_map.mpr (m.sorted.imp fun h heq => by
    rw [heq] at h
    exact irrefl _ h)

/-- A key has one value. -/
theorem unique {m : SortedMap K V} {k : K} {v v' : V} (h : (k, v) ∈ m) (h' : (k, v') ∈ m) :
    v = v' :=
  congrArg Prod.snd (List.inj_on_of_nodup_map m.keys_nodup h h' rfl)

theorem at_of_mem {m : SortedMap K V} {k : K} {v : V} {P : V → Prop} (h : (k, v) ∈ m) :
    m.At k P ↔ P v := by
  constructor
  · rintro ⟨v', hv', hP⟩
    rwa [unique h hv']
  · exact fun hP => ⟨v, h, hP⟩

/-- `m[k] = v`. -/
def assign [DecidableLT K] (k : K) (v : V) (m : SortedMap K V) : SortedMap K V where
  entries := (m.entries.filter fun e => e.1 < k) ++ (k, v) :: m.entries.filter fun e => k < e.1
  sorted := by
    refine List.pairwise_append.mpr ⟨m.sorted.sublist List.filter_sublist, ?_, ?_⟩
    · refine List.pairwise_cons.mpr ⟨fun e he => ?_, m.sorted.sublist List.filter_sublist⟩
      simpa using (List.mem_filter.mp he).2
    · intro e he e' he'
      have hlt : e.1 < k := by simpa using (List.mem_filter.mp he).2
      rcases List.mem_cons.mp he' with rfl | he'
      · exact hlt
      · have hgt : k < e'.1 := by simpa using (List.mem_filter.mp he').2
        exact IsTrans.trans _ _ _ hlt hgt

theorem mem_assign [DecidableLT K] {m : SortedMap K V} {k k' : K} {v v' : V} :
    (k', v') ∈ m.assign k v ↔ k' = k ∧ v' = v ∨ k' ≠ k ∧ (k', v') ∈ m := by
  have hne : k' ≠ k ↔ k' < k ∨ k < k' := by
    constructor
    · intro h
      rcases trichotomous_of (· < ·) k' k with h' | h' | h'
      · exact Or.inl h'
      · exact absurd h' h
      · exact Or.inr h'
    · rintro (h | h) rfl <;> exact irrefl _ h
  rw [hne]
  simp only [mem_def, assign, List.mem_append, List.mem_cons, List.mem_filter, Prod.mk.injEq,
    decide_eq_true_eq]
  tauto

theorem at_assign [DecidableLT K] {m : SortedMap K V} {k k' : K} {v : V} {P : V → Prop} :
    (m.assign k v).At k' P ↔ k' = k ∧ P v ∨ k' ≠ k ∧ m.At k' P := by
  simp only [At, mem_assign]
  constructor
  · rintro ⟨w, ⟨rfl, rfl⟩ | ⟨hne, hw⟩, hP⟩
    · exact Or.inl ⟨rfl, hP⟩
    · exact Or.inr ⟨hne, w, hw, hP⟩
  · rintro (⟨rfl, hP⟩ | ⟨hne, w, hw, hP⟩)
    · exact ⟨v, Or.inl ⟨rfl, rfl⟩, hP⟩
    · exact ⟨w, Or.inr ⟨hne, hw⟩, hP⟩

end Order

/-! ### Lookup -/

section Lookup

variable [DecidableEq K]

/-- The value of a key. -/
def lookup (m : SortedMap K V) (k : K) : Option V := m.entries.lookup k

/-- The map without the key `k`. -/
def erase (k : K) (m : SortedMap K V) : SortedMap K V where
  entries := m.entries.filter fun e => e.1 ≠ k
  sorted := m.sorted.sublist List.filter_sublist

theorem mem_erase {m : SortedMap K V} {k k' : K} {v : V} :
    (k', v) ∈ m.erase k ↔ k' ≠ k ∧ (k', v) ∈ m := by
  simp [mem_def, erase, and_comm]

theorem at_erase {m : SortedMap K V} {k k' : K} {P : V → Prop} :
    (m.erase k).At k' P ↔ k' ≠ k ∧ m.At k' P := by
  simp only [At, mem_erase, and_assoc, exists_and_left]

variable [IsStrictTotalOrder K (· < ·)]

theorem lookup_eq_some {m : SortedMap K V} {k : K} {v : V} : m.lookup k = some v ↔ (k, v) ∈ m := by
  have hmem : ∀ (l : List (K × V)) (v : V), l.lookup k = some v → (k, v) ∈ l := by
    intro l v hl
    induction l with
    | nil => simp at hl
    | cons e l ih =>
      rw [List.lookup_cons] at hl
      split at hl
      · rename_i heq
        obtain rfl := Option.some.inj hl
        rw [beq_iff_eq.mp heq]
        exact List.mem_cons_self
      · exact List.mem_cons_of_mem _ (ih hl)
  refine ⟨hmem m.entries v, fun h => ?_⟩
  -- some value is found, and the key has only one
  cases hl : m.lookup k with
  | some v' => rw [unique (hmem m.entries v' hl) h]
  | none =>
    have hnone := List.lookup_eq_none_iff.mp hl (k, v) h
    simp at hnone

theorem lookup_eq_none {m : SortedMap K V} {k : K} : m.lookup k = none ↔ k ∉ m.keys := by
  rw [mem_keys, not_exists, Option.eq_none_iff_forall_ne_some]
  exact forall_congr' fun v => not_congr lookup_eq_some

theorem not_at_of_lookup {m : SortedMap K V} {k : K} {P : V → Prop} (h : m.lookup k = none) :
    ¬ m.At k P := fun ⟨v, hv, _⟩ => lookup_eq_none.mp h (mem_keys.mpr ⟨v, hv⟩)

variable [DecidableLT K]

theorem lookup_assign {m : SortedMap K V} {k k' : K} {v : V} :
    (m.assign k v).lookup k' = if k' = k then some v else m.lookup k' := by
  ext w
  rw [lookup_eq_some, mem_assign]
  split_ifs with hk
  · simp [hk, eq_comm]
  · simp [hk, lookup_eq_some]

/-- `m.emplace(k, v)`: a value that is there stays. -/
def emplace (k : K) (v : V) (m : SortedMap K V) : SortedMap K V :=
  match m.lookup k with
  | some _ => m
  | none => m.assign k v

theorem emplace_of_lookup {m : SortedMap K V} {k : K} (v : V) (h : m.lookup k = none) :
    m.emplace k v = m.assign k v := by
  rw [emplace, h]

theorem mem_keys_emplace {m : SortedMap K V} {k k' : K} {v : V} :
    k' ∈ (m.emplace k v).keys ↔ k' ∈ m.keys ∨ k' = k := by
  rw [emplace]
  cases hl : m.lookup k with
  | some w =>
    constructor
    · exact Or.inl
    · rintro (h | rfl)
      · exact h
      · exact mem_keys.mpr ⟨w, lookup_eq_some.mp hl⟩
  | none =>
    simp only [mem_keys, mem_assign]
    by_cases hk : k' = k <;> simp [hk]

end Lookup

/-! ### Entries up to their order -/

section Perm

variable [DecidableEq K] [IsStrictTotalOrder K (· < ·)]

omit [DecidableEq K] in
theorem entries_nodup (m : SortedMap K V) : m.entries.Nodup := m.keys_nodup.of_map

theorem perm_erase {m : SortedMap K V} {k : K} {v : V} (h : (k, v) ∈ m) :
    m.entries.Perm ((k, v) :: (m.erase k).entries) := by
  have hnotMem : (k, v) ∉ (m.erase k).entries := fun hmem => (mem_erase.mp hmem).1 rfl
  refine (List.perm_ext_iff_of_nodup m.entries_nodup
    (List.nodup_cons.mpr ⟨hnotMem, (m.erase k).entries_nodup⟩)).mpr fun e => ?_
  obtain ⟨k', v'⟩ := e
  rw [List.mem_cons, ← mem_def, ← mem_def, mem_erase]
  constructor
  · intro he
    by_cases hk : k' = k
    · rw [hk] at he ⊢
      exact Or.inl (by rw [unique he h])
    · exact Or.inr ⟨hk, he⟩
  · rintro (he | ⟨-, he⟩)
    · rw [he]
      exact h
    · exact he

omit [DecidableEq K] in
theorem perm_assign [DecidableLT K] {m : SortedMap K V} {k : K} {v : V} (h : k ∉ m.keys) :
    (m.assign k v).entries.Perm ((k, v) :: m.entries) := by
  have hnotMem : (k, v) ∉ m.entries := fun hmem => h (mem_keys.mpr ⟨v, hmem⟩)
  refine (List.perm_ext_iff_of_nodup (m.assign k v).entries_nodup
    (List.nodup_cons.mpr ⟨hnotMem, m.entries_nodup⟩)).mpr fun e => ?_
  obtain ⟨k', v'⟩ := e
  rw [List.mem_cons, ← mem_def, mem_assign, Prod.mk.injEq, mem_def]
  refine or_congr Iff.rfl (and_iff_right_of_imp fun hmem hk => ?_)
  rw [hk] at hmem
  exact h (mem_keys.mpr ⟨v', hmem⟩)

end Perm

/-! ### Loops that build or cut a map -/

theorem foldl_iff_or {α σ : Type*} {f : σ → α → σ} {P : σ → Prop} {R : α → Prop}
    (h : ∀ s a, P (f s a) ↔ P s ∨ R a) (l : List α) (s : σ) :
    P (l.foldl f s) ↔ P s ∨ ∃ a ∈ l, R a := by
  induction l generalizing s with
  | nil => simp
  | cons a l ih => rw [List.foldl_cons, ih, h, List.exists_mem_cons_iff, or_assoc]

theorem foldl_iff_and {α σ : Type*} {f : σ → α → σ} {P : σ → Prop} {R : α → Prop}
    (h : ∀ s a, P (f s a) ↔ P s ∧ R a) (l : List α) (s : σ) :
    P (l.foldl f s) ↔ P s ∧ ∀ a ∈ l, R a := by
  induction l generalizing s with
  | nil => simp
  | cons a l ih => rw [List.foldl_cons, ih, h, List.forall_mem_cons, and_assoc]

end SortedMap
