import Mathlib.Data.List.Basic
import Mathlib.Tactic.Common

/-!
# Stores as logs of their writes

A store is the list of its writes, newest first; `List.lookup` reads it.  An earlier state of the
store is a suffix of a later one, so a fact about all writes of a run is a fact about every
moment of it.  On a set of keys that are only ever written with one value (`WriteOnce`) a key that
has been written answers the same from then on (`WriteOnce.lookup_eq`).
-/

namespace PutLog

variable {K V : Type*} [BEq K] [LawfulBEq K]

theorem mem_of_lookup {log : List (K × V)} {k : K} {v : V} (h : log.lookup k = some v) :
    (k, v) ∈ log := by
  induction log with
  | nil => simp at h
  | cons w log ih =>
    obtain ⟨k', v'⟩ := w
    rw [List.lookup_cons] at h
    split at h
    · rename_i heq
      obtain rfl := Option.some.inj h
      rw [eq_of_beq heq]
      exact List.mem_cons_self ..
    · exact List.mem_cons_of_mem _ (ih h)

theorem lookup_isSome_of_mem {log : List (K × V)} {k : K} {v : V} (h : (k, v) ∈ log) :
    ∃ v', log.lookup k = some v' := by
  induction log with
  | nil => simp at h
  | cons w log ih =>
    obtain ⟨k', v'⟩ := w
    rw [List.lookup_cons]
    split
    · exact ⟨v', rfl⟩
    · rename_i hne
      rcases List.mem_cons.mp h with h | h
      · obtain ⟨rfl, -⟩ := Prod.mk.inj h
        simp at hne
      · exact ih h

theorem lookup_eq_none_of_not_mem {log : List (K × V)} {k : K} (h : ∀ v, (k, v) ∉ log) :
    log.lookup k = none := by
  cases hl : log.lookup k with
  | none => rfl
  | some v => exact absurd (mem_of_lookup hl) (h v)

/-- Writes to other keys do not change what `k` answers. -/
theorem lookup_append_of_not_mem {new log : List (K × V)} {k : K} (h : ∀ v, (k, v) ∉ new) :
    (new ++ log).lookup k = log.lookup k := by
  rw [List.lookup_append, lookup_eq_none_of_not_mem h, Option.none_or]

/-- Every two writes to a key in `S` carry the same value. -/
def WriteOnce (S : Set K) (log : List (K × V)) : Prop :=
  ∀ k ∈ S, ∀ v v', (k, v) ∈ log → (k, v') ∈ log → v = v'

omit [BEq K] [LawfulBEq K] in
theorem WriteOnce.of_suffix {S : Set K} {log log' : List (K × V)} (h : WriteOnce S log)
    (hs : log' <:+ log) : WriteOnce S log' :=
  fun k hk v v' hv hv' => h k hk v v' (hs.subset hv) (hs.subset hv')

/-- A write-once key answers what was written. -/
theorem WriteOnce.lookup_eq {S : Set K} {log : List (K × V)} (h : WriteOnce S log) {k : K}
    (hk : k ∈ S) {v : V} (hv : (k, v) ∈ log) : log.lookup k = some v := by
  obtain ⟨v', hv'⟩ := lookup_isSome_of_mem hv
  rw [hv', h k hk v v' hv (mem_of_lookup hv')]

omit [BEq K] [LawfulBEq K] in
/-- A write-once log stays so when the new writes agree with the old ones and among themselves. -/
theorem WriteOnce.append {S : Set K} {new log : List (K × V)} (h : WriteOnce S log)
    (hnew : WriteOnce S new)
    (hold : ∀ k ∈ S, ∀ v v', (k, v) ∈ new → (k, v') ∈ log → v = v') :
    WriteOnce S (new ++ log) := by
  intro k hk v v' hv hv'
  rcases List.mem_append.mp hv with hv | hv <;> rcases List.mem_append.mp hv' with hv' | hv'
  · exact hnew k hk v v' hv hv'
  · exact hold k hk v v' hv hv'
  · exact (hold k hk v' v hv' hv).symm
  · exact h k hk v v' hv hv'

end PutLog
