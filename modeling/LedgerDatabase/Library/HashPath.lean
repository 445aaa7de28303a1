import Mathlib.Data.Set.Basic

/-!
# Paths of hashes

Strings hold hashes of other strings (`child`).  A path starts with a hash, and each of its strings
holds the hash of the one before it (`Path`).

Let `Known` be closed: what a known string holds is the hash of a known string, unless the string is
opaque.  Then a path to the hash of a known string starts with the hash of a known string, as long as
no string of the path has the hash of another known string and none is opaque (`Path.start`).
-/

namespace HashPath

variable {α δ : Type*} (H : α → δ) (child : α → δ → Prop)

/-- Each string of the list holds the hash of the one before it, and the first one holds `h`. -/
inductive Path (h : δ) : List α → δ → Prop
  | nil : Path h [] h
  | snoc {ns : List α} {h' : δ} {n : α} : Path h ns h' → child n h' → Path h (ns ++ [n]) (H n)

variable {H child} {Known Opaque : Set α}

theorem Path.cons {ns : List α} {n : α} {h h' : δ} (hchild : child n h) (hpath : Path H child (H n) ns h') :
    Path H child h (n :: ns) h' := by
  induction hpath with
  | nil => exact Path.nil.snoc hchild
  | snoc _ hlast ih => exact ih.snoc hlast

theorem Path.holds {ns : List α} {h h' : δ} (hpath : Path H child h ns h') :
    ∀ n ∈ ns, ∃ x, child n x := by
  induction hpath with
  | nil => exact fun n hn => absurd hn List.not_mem_nil
  | snoc _ hlast ih =>
    intro n hn
    rcases List.mem_append.mp hn with hn | hn
    · exact ih n hn
    · rw [List.mem_singleton.mp hn]
      exact ⟨_, hlast⟩

variable (H child) in
/-- What a known string holds is the hash of a known string, unless the string is opaque. -/
def Closed (Known Opaque : Set α) : Prop :=
  ∀ t ∈ Known, ∀ h, child t h → t ∈ Opaque ∨ ∃ t' ∈ Known, H t' = h

/-- **A path to something known** starts there. -/
theorem Path.start {d : α} {ns : List α} {h : δ} (hclosed : Closed H child Known Opaque)
    (hpath : Path H child (H d) ns h) (hend : ∃ t ∈ Known, H t = h) :
    d ∈ Known ∨ (∃ s ∈ d :: ns, ∃ t ∈ Known, s ≠ t ∧ H s = H t) ∨
      ∃ s ∈ ns, s ∈ Known ∧ s ∈ Opaque := by
  induction hpath with
  | nil =>
    obtain ⟨t, ht, heq⟩ := hend
    by_cases hd : d = t
    · left
      rwa [hd]
    · exact Or.inr (Or.inl ⟨d, List.mem_cons_self, t, ht, hd, heq.symm⟩)
  | @snoc ns h' n hpath hchild ih =>
    obtain ⟨t, ht, heq⟩ := hend
    have hmem : n ∈ ns ++ [n] := List.mem_append_right _ List.mem_cons_self
    by_cases hn : n = t
    · -- the last string is known, and so is what it holds
      rw [← hn] at ht
      rcases hclosed n ht h' hchild with hopaque | hknown
      · exact Or.inr (Or.inr ⟨n, hmem, ht, hopaque⟩)
      · rcases ih hknown with hd | ⟨s, hs, hother⟩ | ⟨s, hs, hopaque⟩
        · exact Or.inl hd
        · exact Or.inr (Or.inl ⟨s, by rw [← List.cons_append]; exact List.mem_append_left _ hs, hother⟩)
        · exact Or.inr (Or.inr ⟨s, List.mem_append_left _ hs, hopaque⟩)
    · exact Or.inr (Or.inl ⟨n, List.mem_cons_of_mem _ hmem, t, ht, hn, heq.symm⟩)

theorem Path.append {ns ns' : List α} {h h' h'' : δ} (hpath : Path H child h ns h')
    (hpath' : Path H child h' ns' h'') : Path H child h (ns ++ ns') h'' := by
  induction hpath' with
  | nil => rwa [List.append_nil]
  | snoc _ hlast ih =>
    rw [← List.append_assoc]
    exact ih.snoc hlast

end HashPath
