import LedgerDatabase.Common.Equiv.Hash
import LedgerDatabase.Ledgerdb.Equiv.Mpt.Commit

/-!
# Tries in the store

`StoreOk H S db`: under the hash of a chunk of `S` the store holds that chunk or nothing, and its
cache answers likewise.  A read of a chunk that is not there yet enters its absence in the cache,
where it would hide a later write; the invariant says that only the nil chunk, which is never
written, is cached as absent.  `knowStore` are the reads that keep the invariant: those of chunks
that are there, and of the nil chunk.

`Held db t`: all nodes of `t` are there.  Later writes keep this (`Held.mono`).
-/

namespace LedgerDatabase.Ledgerdb.Mpt

open Chunk

/-- What a read of a chunk of `S` answers, once it is there. -/
def answerFor (H : Bytes → Hash) (c : Bytes) : Option Bytes := if c = enc H .nil then none else some c

/-- The store is content-addressed on `S`. -/
structure StoreOk (H : Bytes → Hash) (S : Set Bytes) (db : DB) : Prop where
  /-- Only a chunk itself is written under its hash, and the nil chunk is not. -/
  rocks : ∀ c ∈ S, ∀ v, ((H c).bytes, v) ∈ db.rocks → v = c ∧ c ≠ enc H .nil
  /-- Cached answers are right, and only the nil chunk is cached as absent. -/
  cache : ∀ c ∈ S, ∀ v, ((H c).toBase32, v) ∈ db.cache → v = answerFor H c

/-- All nodes of a tree are in the store. -/
def Held (H : Bytes → Hash) (db : DB) (t : Tree) : Prop :=
  t.All fun t => isValue t = false → t ≠ .nil → ((H (enc H t)).bytes, enc H t) ∈ db.rocks

/-- The chunk is the nil chunk or in the store. -/
def Present (H : Bytes → Hash) (db : DB) (c : Bytes) : Prop :=
  c = enc H .nil ∨ ((H c).bytes, c) ∈ db.rocks

open Classical in
/-- The reads that leave the store content-addressed, with their answers. -/
noncomputable def knowStore (H : Bytes → Hash) (S : Set Bytes) (db : DB) :
    Query → Option (Option Bytes)
  | .string key => some (db.getString key)
  | .hash h => if ∃ c ∈ S, h = H c ∧ Present H db c then some (db.view (.hash h)) else none

section

variable {H : Bytes → Hash} {S : Set Bytes} {db db' : DB} {t : Tree}

theorem enc_ne_nil (hne : t ≠ .nil) : enc H t ≠ enc H .nil := by
  intro h
  have hkind := kind_eq_of_enc_eq h
  cases t <;> first | exact absurd rfl hne | cases hkind

theorem answerFor_enc (t : Tree) : answerFor H (enc H t) = stored H t := by
  by_cases hne : t = .nil
  · rw [hne, answerFor, if_pos rfl]
    rfl
  · rw [answerFor, if_neg (enc_ne_nil hne), stored_getD hne]

/-! ### Reads -/

/-- A present chunk is read as it is. -/
theorem StoreOk.view_eq (h : StoreOk H S db) {c : Bytes} (hc : c ∈ S) (hpres : Present H db c) :
    db.view (.hash (H c)) = answerFor H c := by
  simp only [DB.view, DB.answer, DB.getHash]
  cases hcache : db.cache.lookup (H c).toBase32 with
  | some v => exact h.cache c hc v (PutLog.mem_of_lookup hcache)
  | none =>
    change db.rocks.lookup (H c).bytes = _
    rcases hpres with rfl | hmem
    · rw [answerFor, if_pos rfl]
      exact PutLog.lookup_eq_none_of_not_mem fun v hv => (h.rocks _ hc v hv).2 rfl
    · obtain ⟨v, hv⟩ := PutLog.lookup_isSome_of_mem hmem
      obtain ⟨rfl, hne⟩ := h.rocks c hc v (PutLog.mem_of_lookup hv)
      rw [hv, answerFor, if_neg hne]

/-- Reading a present chunk keeps the invariant. -/
theorem StoreOk.getHash (hinj : Set.InjOn H S) (h : StoreOk H S db) {c : Bytes} (hc : c ∈ S)
    (hpres : Present H db c) : StoreOk H S (db.getHash (H c)).2 := by
  have hview := h.view_eq hc hpres
  simp only [DB.view, DB.answer, DB.getHash] at hview ⊢
  cases hcache : db.cache.lookup (H c).toBase32 with
  | some v => exact h
  | none =>
    rw [hcache] at hview
    refine ⟨h.rocks, fun c' hc' v hv => ?_⟩
    rcases List.mem_cons.mp hv with heq | hv
    · obtain ⟨hkey, rfl⟩ := Prod.mk.inj heq
      obtain rfl := hinj hc' hc (Hash.toBase32_injective hkey)
      exact hview
    · exact h.cache c' hc' v hv

theorem rocks_answer (q : Query) (db : DB) : (DB.answer q db).2.rocks = db.rocks := by
  cases q with
  | string key => rfl
  | hash h =>
    simp only [DB.answer, DB.getHash]
    split <;> rfl

/-- Reads do not change what later reads return. -/
theorem reads_fst {α : Type} (p : Reads α) (db : DB) : (db.reads p).1 = p.run db.view := by
  refine Ask.exec_fst_eq_run (fun q q' db => ?_) p db
  cases q' with
  | string key => rfl
  | hash h =>
    simp only [DB.answer, DB.getHash]
    cases hcache : db.cache.lookup h.toBase32 with
    | some chunk => rfl
    | none =>
      cases q with
      | string key => rfl
      | hash h' =>
        -- the entry that is new in the cache is the answer that was given before
        simp only [List.lookup_cons]
        by_cases heq : h'.toBase32 = h.toBase32
        · obtain rfl := Hash.toBase32_injective heq
          simp [hcache]
        · simp only [beq_false_of_ne heq]
          cases db.cache.lookup h'.toBase32 <;> rfl

/-- A known chunk is in the store. -/
theorem StoreOk.mem_of_know (h : StoreOk H S db) {k : Hash} {c : Bytes}
    (hk : knowStore H S db (.hash k) = some (some c)) : (k.bytes, c) ∈ db.rocks := by
  simp only [knowStore] at hk
  split_ifs at hk with hex
  obtain ⟨c', hc', rfl, hpres⟩ := hex
  rw [h.view_eq hc' hpres, Option.some.injEq, answerFor] at hk
  split_ifs at hk with hnil
  obtain rfl := Option.some.inj hk
  exact hpres.resolve_left hnil

/-- A program that makes only the reads of `knowStore` returns what is known, and changes the
cache only. -/
theorem StoreOk.reads_of_runIn (hinj : Set.InjOn H S) (h : StoreOk H S db) {α : Type}
    {p : Reads α} {x : Except Fault α} (hp : p.runIn (knowStore H S db) = some x) :
    (db.reads p).1 = x ∧ StoreOk H S (db.reads p).2 ∧ (db.reads p).2.rocks = db.rocks := by
  refine Ask.exec_of_runIn (fun s => StoreOk H S s ∧ s.rocks = db.rocks) ?_ hp ⟨h, rfl⟩
  rintro (key | k) r s hq ⟨hs, hrocks⟩
  · obtain rfl := Option.some.inj hq
    exact ⟨by rw [DB.answer, DB.getString, DB.getString, hrocks], hs, hrocks⟩
  · simp only [knowStore] at hq
    split_ifs at hq with hex
    obtain ⟨c, hc, rfl, hpres⟩ := hex
    have hpres' : Present H s c := by rwa [Present, hrocks]
    refine ⟨?_, hs.getHash hinj hc hpres', (rocks_answer (.hash (H c)) s).trans hrocks⟩
    rw [← Option.some.inj hq, h.view_eq hc hpres]
    exact hs.view_eq hc hpres'

theorem Held.mono (h : Held H db t) (hsub : db.rocks ⊆ db'.rocks) : Held H db' t := by
  induction t with
  | nil => exact fun hv hne => absurd rfl hne
  | value v => exact fun hv => by simp [isValue] at hv
  | short key child ih => exact ⟨fun hv hne => hsub (h.1 hv hne), ih h.2⟩
  | full kids ih => exact ⟨fun hv hne => hsub (h.1 hv hne), fun i => ih i (h.2 i)⟩

theorem held_nil : Held H db .nil := fun _ hne => absurd rfl hne

/-- What is held is known. -/
theorem Held.known (hok : StoreOk H S db) (hchunk : Chunks H S t) (h : Held H db t)
    (hnilS : enc H .nil ∈ S) : Known H (knowStore H S db) t := by
  have hnode : ∀ s : Tree, (isValue s = false → enc H s ∈ S) →
      (isValue s = false → s ≠ .nil → ((H (enc H s)).bytes, enc H s) ∈ db.rocks) →
      isValue s = false → knowStore H S db (.hash (H (enc H s))) = some (stored H s) := by
    intro s hS hmem hv
    have hpres : Present H db (enc H s) := by
      by_cases hne : s = .nil
      · exact Or.inl (by rw [hne])
      · exact Or.inr (hmem hv hne)
    rw [knowStore, if_pos ⟨_, hS hv, rfl, hpres⟩, hok.view_eq (hS hv) hpres, answerFor_enc]
  induction t with
  | nil => exact hnode _ (fun _ => hnilS) h
  | value v => exact fun hv => by simp [isValue] at hv
  | short key child ih => exact ⟨hnode _ hchunk.1 h.1, ih hchunk.2 h.2⟩
  | full kids ih => exact ⟨hnode _ hchunk.1 h.1, fun i => ih i (hchunk.2 i) (h.2 i)⟩

/-! ### Writes -/

theorem rocks_putHashes (puts : List (Hash × Bytes)) (db : DB) :
    (db.putHashes puts).rocks = (puts.map fun e => (e.1.bytes, e.2)).reverse ++ db.rocks ∧
      (db.putHashes puts).cache = db.cache := by
  induction puts generalizing db with
  | nil => exact ⟨rfl, rfl⟩
  | cons e puts ih =>
    obtain ⟨hrocks, hcache⟩ := ih (db.putHash e.1 e.2)
    refine ⟨?_, hcache⟩
    rw [DB.putHashes, List.foldl_cons]
    exact hrocks.trans (by simp [DB.putHash])

theorem hash_eq_of_bytes_eq {h h' : Hash} (heq : h.bytes = h'.bytes) : h = h' := by
  cases h
  cases h'
  simpa using heq

/-- Writing chunks of `S` under their hashes keeps the store content-addressed. -/
theorem StoreOk.putHashes (hinj : Set.InjOn H S) (h : StoreOk H S db) {puts : List (Hash × Bytes)}
    (hputs : PutsOk H S puts) : StoreOk H S (db.putHashes puts) := by
  obtain ⟨hrocks, hcache⟩ := rocks_putHashes puts db
  constructor
  · intro c hc v hv
    rw [hrocks, List.mem_append, List.mem_reverse, List.mem_map] at hv
    rcases hv with ⟨e, he, heq⟩ | hv
    · obtain ⟨hhash, hS, hne⟩ := hputs e he
      obtain ⟨hkey, rfl⟩ := Prod.mk.inj heq
      have hce := hash_eq_of_bytes_eq hkey
      rw [hhash] at hce
      obtain rfl := hinj hS hc hce
      exact ⟨rfl, hne⟩
    · exact h.rocks c hc v hv
  · intro c hc v hv
    rw [hcache] at hv
    exact h.cache c hc v hv

/-- A textual record that is not under the hash of a chunk of `S`. -/
theorem StoreOk.append (h : StoreOk H S db) {ws : List (Bytes × Bytes)}
    (hkeys : ∀ w ∈ ws, ∀ c ∈ S, (H c).bytes ≠ w.1) :
    StoreOk H S { db with rocks := ws ++ db.rocks } := by
  refine ⟨fun c hc v hv => ?_, h.cache⟩
  rcases List.mem_append.mp hv with hv | hv
  · exact absurd rfl (hkeys _ hv c hc)
  · exact h.rocks c hc v hv

/-- After the writes of `Commit` the whole tree is held. -/
theorem Persists.held {puts : List (Hash × Bytes)} {know : Query → Option (Option Bytes)}
    (hknow : ∀ h c, know (.hash h) = some (some c) → (h.bytes, c) ∈ db.rocks)
    (h : Persists H know puts t) : Held H (db.putHashes puts) t := by
  obtain ⟨hrocks, -⟩ := rocks_putHashes puts db
  have hnode : ∀ s : Tree, (isValue s = false → know (.hash (H (enc H s))) = some (stored H s) ∨
      s ≠ .nil ∧ (H (enc H s), enc H s) ∈ puts) → isValue s = false → s ≠ .nil →
      ((H (enc H s)).bytes, enc H s) ∈ (db.putHashes puts).rocks := by
    intro s hs hv hne
    rw [hrocks]
    rcases hs hv with hk | ⟨-, hmem⟩
    · rw [stored_getD hne] at hk
      exact List.mem_append_right _ (hknow _ _ hk)
    · exact List.mem_append_left _ (List.mem_reverse.mpr (List.mem_map.mpr ⟨_, hmem, rfl⟩))
  induction t with
  | nil => exact held_nil
  | value v => exact fun hv => by simp [isValue] at hv
  | short key child ih => exact ⟨hnode _ h.1, ih h.2⟩
  | full kids ih => exact ⟨hnode _ h.1, fun i => ih i (h.2 i)⟩

end

end LedgerDatabase.Ledgerdb.Mpt
