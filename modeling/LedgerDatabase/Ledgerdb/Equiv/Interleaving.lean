import LedgerDatabase.Ledgerdb.Equiv.GetProofs
import LedgerDatabase.Ledgerdb.Equiv.HashChain

/-!
# `GetProofs` among the writes of `buildTree`

`World`: a ledger together with the writes that the round under way has still to make, one at a
time and in the order of the program.  `Act` is a step of the other threads: a call of `Set`, the
start of a round, one write of the round, or a chunk that another reader enters in the cache.

`Mid` is the invariant between two writes: all earlier commits are in the store, the digest names
the last of them, and once the remaining writes are made the ledger is as the plan says.
-/

namespace LedgerDatabase.Ledgerdb.LedgerDB

open Mpt MerkleTree

/-! ### Worlds -/

/-- A ledger in the middle of a round. -/
structure World where
  ledger : LedgerDB := {}
  /-- The writes that the round has still to make, in order. -/
  writes : List (Bytes × Bytes) := []
  /-- The calls of `Set` and the rounds that are still to come. -/
  todo : List Step

/-- The writes between two stores, in order. -/
def newWrites (db db' : DB) : List (Bytes × Bytes) :=
  (db'.rocks.take (db'.rocks.length - db.rocks.length)).reverse

/-- A step of the other threads. -/
inductive Act (H : Bytes → Hash) : World → World → Prop
  /-- A call of `Set`. -/
  | set {s s' : LedgerDB} {ws : List (Bytes × Bytes)} {keys values : List Bytes} {timestamp : ℕ}
      {coins : List (List Bool)} {todo : List Step} {r : ℕ} :
    s.set keys values timestamp coins = .ok (s', r) →
    Act H ⟨s, ws, .set keys values timestamp coins :: todo⟩ ⟨s', ws, todo⟩
  /-- A round pops its blocks and computes what it is going to write. -/
  | start {s s' : LedgerDB} {n : ℕ} {todo : List Step} :
    s.buildTree H n = .ok s' →
    Act H ⟨s, [], .build n :: todo⟩
      ⟨{ s with treeQueue := s'.treeQueue }, newWrites s.db s'.db, todo⟩
  /-- One write of the round; the last one ends it. -/
  | write {s : LedgerDB} {w : Bytes × Bytes} {ws : List (Bytes × Bytes)} {todo : List Step} :
    Act H ⟨s, w :: ws, todo⟩
      ⟨{ s with
        db := { s.db with rocks := w :: s.db.rocks }
        commitSeq := if ws = [] then s.commitSeq + 1 else s.commitSeq }, ws, todo⟩
  /-- Another reader gets a chunk that is there, or the nil chunk. -/
  | read {s : LedgerDB} {ws : List (Bytes × Bytes)} {todo : List Step} {h : Hash} :
    (s.db.rocks.lookup h.bytes ≠ none ∨ h = H (enc H .nil)) →
    Act H ⟨s, ws, todo⟩ ⟨{ s with db := (s.db.getHash h).2 }, ws, todo⟩

/-- How a world answers a read. -/
def World.answer (q : Query) (w : World) : Option Bytes × World :=
  ((DB.answer q w.ledger.db).1, { w with ledger := { w.ledger with db := (DB.answer q w.ledger.db).2 } })

/-! ### The invariant -/

/-- The ledger once the remaining writes are made. -/
def settle (s : LedgerDB) (ws : List (Bytes × Bytes)) : LedgerDB :=
  if ws = [] then s
  else { s with db := { s.db with rocks := ws.reverse ++ s.db.rocks }, commitSeq := s.commitSeq + 1 }

/-- A write of round `c`, which follows `n` blocks, before the digest. -/
def RoundWrite (H : Bytes → Hash) (S : Set Bytes) (n c : ℕ) (w : Bytes × Bytes) : Prop :=
  ChunkWrite H S w ∨ (∃ xs, NodeWrite H xs n c w) ∨ w.1 = commitKey (toDecimal c)

/-- Between two writes. -/
structure Mid (H : Bytes → Hash) (S : Set Bytes) (p : Plan) (vals : List Bytes) (s : LedgerDB)
    (ws : List (Bytes × Bytes)) : Prop where
  final : Inv H S p vals (settle s ws)
  store : StoreOk H S s.db
  commits : ∀ c < s.commitSeq, CommitOk H S vals (p.batches.take (c + 1)) c s.db
  digest : ∀ c, c + 1 = s.commitSeq → DigestOk H (p.batches.take s.commitSeq) c s.db
  shape : ws = [] ∨ ∃ front d, ws = front ++ [(str "digest", d)] ∧
    ∀ w ∈ front, RoundWrite H S (p.batches.take s.commitSeq).flatten.length s.commitSeq w

section

variable {H : Bytes → Hash} {S : Set Bytes} {p : Plan} {vals : List Bytes} {s s' : LedgerDB}
  {w : Bytes × Bytes} {ws : List (Bytes × Bytes)} {n c : ℕ}

theorem RoundWrite.write (h : RoundWrite H S n c w) (count : ℕ) : Write H S count n c w := by
  rcases h with h | ⟨xs, h⟩ | h
  · exact .chunk h
  · exact .node xs h
  · exact .commit h

/-- The keys of a round are not those of a call of `Set`, nor of the digest. -/
theorem RoundWrite.apart (hH : HashOk H S) (h : RoundWrite H S n c w) :
    (∀ {k : Bytes}, str "skiplist_" <+: k → w.1 ≠ k) ∧ (∀ i, w.1 ≠ ledgerKey i) ∧
      w.1 ≠ str "digest" := by
  rcases h with h | ⟨xs, l, j, v, -, -, rfl⟩ | h
  · exact ⟨fun hk => h.ne_text hH (.skiplist hk), fun i => h.ne_text hH (.ledger i),
      h.ne_text hH .digest⟩
  · exact ⟨fun hk => ne_of_head? (head?_keyOf l j _) (head?_skiplist hk) (by decide),
      fun i => ne_of_head? (head?_keyOf l j _) (head?_ledgerKey i) (by decide),
      ne_of_head? (head?_keyOf l j _) head?_digest (by decide)⟩
  · rw [h]
    exact ⟨fun hk => ne_of_head? (head?_commitKey _) (head?_skiplist hk) (by decide),
      fun i => ne_of_head? (head?_commitKey _) (head?_ledgerKey i) (by decide),
      ne_of_head? (head?_commitKey _) head?_digest (by decide)⟩

theorem Mid.of_inv (h : Inv H S p vals s) : Mid H S p vals s [] where
  final := h
  store := h.store
  commits c hc := h.commits c (h.commitSeq ▸ hc)
  digest c hc := by
    rw [List.take_of_length_le h.commitSeq.ge]
    exact h.digest c (h.commitSeq ▸ hc)
  shape := Or.inl rfl

theorem Mid.inv (h : Mid H S p vals s []) : Inv H S p vals s := h.final

/-- The rounds that have ended are among those of the plan. -/
theorem Mid.commitSeq_le (h : Mid H S p vals s ws) : s.commitSeq ≤ p.batches.length := by
  have hseq := h.final.commitSeq
  rw [settle] at hseq
  split_ifs at hseq
  · exact hseq.le
  · exact (Nat.le_succ _).trans hseq.le

theorem Mid.length_vals (h : Mid H S p vals s ws) : vals.length = p.count := h.final.length_vals

/-! ### Steps -/

/-- **One write** of the round under way. -/
theorem Mid.write (hH : HashOk H S) (hp : p.Ok) (h : Mid H S p vals s (w :: ws)) :
    Mid H S p vals { s with
      db := { s.db with rocks := w :: s.db.rocks }
      commitSeq := if ws = [] then s.commitSeq + 1 else s.commitSeq } ws := by
  have hfinal := h.final
  rw [settle, if_neg (List.cons_ne_nil _ _)] at hfinal
  by_cases hws : ws = []
  · -- the digest is written, and the round is over
    subst hws
    rw [if_pos rfl]
    exact .of_inv hfinal
  rw [if_neg hws]
  obtain ⟨front, d, hfront, hround⟩ := h.shape.resolve_left (List.cons_ne_nil _ _)
  cases front with
  | nil => exact absurd (List.cons.inj hfront).2 hws
  | cons w' front =>
    obtain ⟨rfl, rfl⟩ := List.cons.inj hfront
    have hw := hround w List.mem_cons_self
    have hwrite : ∀ w' ∈ [w], Write H S vals.length (p.batches.take s.commitSeq).flatten.length
        s.commitSeq w' := fun w' hw' => by
      rw [List.mem_singleton.mp hw']
      exact hw.write _
    have hget : ∀ k, w.1 ≠ k → DB.getString { s.db with rocks := [w] ++ s.db.rocks } k
        = s.db.getString k := fun k hk => getString_log fun w' hw' => by
      rw [List.mem_singleton.mp hw']
      exact hk
    have hok : StoreOk H S { s.db with rocks := [w] ++ s.db.rocks } :=
      storeOk_log hH h.store fun w' hw' => (hwrite w' hw').chunk_or_text
    refine ⟨?_, hok, fun c hc => ?_, fun c hc => ?_, Or.inr ⟨front, d, rfl, fun w' hw' => ?_⟩⟩
    · rw [settle, if_neg hws]
      simpa using hfinal
    · have hle := length_flatten_take_le p.batches (c + 1)
      have hcount := hp.length_le
      have hvals := h.length_vals
      refine (h.commits c hc).log hH hwrite (by omega) ?_ (Nat.ne_of_lt hc)
      have := length_flatten_take_le (p.batches.take s.commitSeq) (c + 1)
      rwa [List.take_take, Nat.min_eq_left hc] at this
    · exact (h.digest c hc).congr (hget _ (hw.apart hH).2.2)
        (hget _ ((hw.write 0).ne_commitKey hH (by simp only at hc; omega)))
    · exact hround w' (List.mem_cons_of_mem _ hw')

/-- A chunk of another reader. -/
theorem StoreOk.getHash_present (hH : HashOk H S) {db : DB} (h : StoreOk H S db) {x : Hash}
    (hx : db.rocks.lookup x.bytes ≠ none ∨ x = H (enc H .nil)) :
    StoreOk H S (db.getHash x).2 ∧ (db.getHash x).2.rocks = db.rocks := by
  refine ⟨?_, Mpt.rocks_answer (.hash x) db⟩
  by_cases hmem : ∃ ch ∈ S, x = H ch
  · obtain ⟨ch, hch, rfl⟩ := hmem
    refine h.getHash hH.inj hch ?_
    rcases hx with hx | hx
    · obtain ⟨v, hv⟩ := Option.ne_none_iff_exists'.mp hx
      have hin := PutLog.mem_of_lookup hv
      exact Or.inr ((h.rocks ch hch v hin).1 ▸ hin)
    · exact Or.inl (hH.inj hch hH.nil hx)
  · rw [DB.getHash]
    split
    · exact h
    · refine ⟨h.rocks, fun ch hch v hv => ?_⟩
      rcases List.mem_cons.mp hv with heq | hv
      · exact absurd ⟨ch, hch, (Hash.toBase32_injective (Prod.mk.inj heq).1).symm⟩ hmem
      · exact h.cache ch hch v hv

/-- The store with other entries in the cache. -/
theorem Mid.cache (h : Mid H S p vals s ws) {db : DB} (hok : StoreOk H S db)
    (hrocks : db.rocks = s.db.rocks) : Mid H S p vals { s with db := db } ws := by
  have hget : ∀ k, db.getString k = s.db.getString k := fun k => congrArg (List.lookup k) hrocks
  have hsub : s.db.rocks ⊆ db.rocks := by rw [hrocks]; exact List.Subset.refl _
  refine ⟨?_, hok, fun c hc => (h.commits c hc).congr hget hsub,
    fun c hc => (h.digest c hc).congr (hget _) (hget _), h.shape⟩
  have hfinal := h.final
  rw [settle] at hfinal ⊢
  split_ifs at hfinal ⊢
  · exact hfinal.congr hget hsub hok
  · refine hfinal.congr (fun k => ?_) ?_ ⟨?_, hok.cache⟩
    · exact congrArg (fun l => List.lookup k (ws.reverse ++ l)) hrocks
    · rw [hrocks]
      exact List.Subset.refl _
    · simp only [hrocks]
      exact hfinal.store.rocks

/-- What a round leaves of a ledger as it is. -/
theorem buildTree_fields {n : ℕ} (h : s.buildTree H n = .ok s') (hne : s.treeQueue.take n ≠ []) :
    s' = { s with
      db := s'.db, commitSeq := s.commitSeq + 1, treeQueue := s'.treeQueue } := by
  rw [buildTree] at h
  rcases hb : s.treeQueue.take n with _ | ⟨first, blks⟩
  · exact absurd hb hne
  · rw [hb] at h
    obtain ⟨db', -, h⟩ := bind_eq_ok_iff.mp h
    obtain rfl := Except.ok.inj h
    rfl

theorem newWrites_append {db db' : DB} {log : List (Bytes × Bytes)}
    (h : db'.rocks = log ++ db.rocks) : newWrites db db' = log.reverse := by
  rw [newWrites, h, List.length_append, Nat.add_sub_cancel, List.take_left]

/-- **The start of a round.** -/
theorem Mid.start (hH : HashOk H S) (hp : p.Ok) (h : Mid H S p vals s []) {n : ℕ}
    (hascii : ∀ blk ∈ p.queue, ∀ k ∈ blk.mptKs, Ascii k)
    (hchunks : ∀ t ∈ setTrace (treeOf p.batches) (mptBlks (p.queue.take n)), Chunks H S t)
    (hbuild : s.buildTree H n = .ok s') :
    Mid H S (p.step (.build n)) vals { s with treeQueue := s'.treeQueue } (newWrites s.db s'.db) := by
  have hinv := h.inv
  rcases buildTree_inv hH hp hinv n hascii hchunks with ⟨herr, -⟩ | ⟨s₁, hok, hinv', hround⟩
  · rw [herr] at hbuild
    cases hbuild
  obtain rfl := Except.ok.inj (hok.symm.trans hbuild)
  rw [Plan.step] at hinv' ⊢
  by_cases hnil : p.queue.take n = []
  · rw [if_pos hnil] at hinv' ⊢
    -- there is nothing to do
    have hsame : s₁ = s := by
      rw [buildTree, hinv.queue, hnil] at hbuild
      exact (Except.ok.inj hbuild).symm
    rw [hsame, newWrites, Nat.sub_self]
    exact h
  rw [if_neg hnil] at hinv' ⊢
  obtain ⟨ws, info, d, hlog, -, hws⟩ := (hround hnil).log
  have hrocks : s₁.db.rocks = ((str "digest", d) ::
      (commitKey (toDecimal p.batches.length), info.toBytes) :: ws) ++ s.db.rocks := hlog
  have hwrites : newWrites s.db s₁.db = (ws.reverse ++
      [(commitKey (toDecimal p.batches.length), info.toBytes)]) ++ [(str "digest", d)] := by
    rw [newWrites_append hrocks]
    simp
  have hseq := hinv.commitSeq
  have htake : ∀ c ≤ p.batches.length, (p.batches ++ [p.queue.take n]).take c = p.batches.take c :=
    fun c hc => List.take_append_of_le_length hc
  refine ⟨?_, h.store, fun c hc => ?_, fun c hc => ?_, Or.inr ⟨_, d, hwrites, fun w hw => ?_⟩⟩
  · -- only the cache is not the one of the round
    have hne : newWrites s.db s₁.db ≠ [] := by
      rw [hwrites]
      exact List.append_ne_nil_of_right_ne_nil _ (List.cons_ne_nil _ _)
    rw [settle, if_neg hne]
    have hlogs : (newWrites s.db s₁.db).reverse ++ s.db.rocks = s₁.db.rocks := by
      rw [newWrites_append hrocks, List.reverse_reverse, hrocks]
    simp only [hlogs]
    have hcongr : Inv H S _ vals { s₁ with db := { s.db with rocks := s₁.db.rocks } } :=
      hinv'.congr (fun _ => rfl) (List.Subset.refl _) ⟨hinv'.store.rocks, h.store.cache⟩
    have hfields := buildTree_fields hbuild (by rwa [hinv.queue])
    rw [hfields] at hcongr ⊢
    exact hcongr
  · simp only
    rw [htake _ (by simp only at hc; omega)]
    exact h.commits c hc
  · simp only
    rw [htake _ hseq.le]
    exact h.digest c hc
  · simp only
    rw [htake _ hseq.le, List.take_of_length_le hseq.ge, hseq]
    rcases List.mem_append.mp hw with hw | hw
    · rcases hws w (List.mem_reverse.mp hw) with hw | hw
      · exact Or.inl hw
      · exact Or.inr (Or.inl ⟨_, hw⟩)
    · rw [List.mem_singleton.mp hw]
      exact Or.inr (Or.inr rfl)

/-- Writes to different keys commute. -/
theorem lookup_append_comm {a b log : List (Bytes × Bytes)}
    (h : ∀ x ∈ a, ∀ y ∈ b, x.1 ≠ y.1) (k : Bytes) :
    (a ++ (b ++ log)).lookup k = (b ++ (a ++ log)).lookup k := by
  by_cases hk : ∃ v, (k, v) ∈ a
  · obtain ⟨v, hv⟩ := hk
    have hb : ∀ u, (k, u) ∉ b := fun u hu => h _ hv _ hu rfl
    simp only [List.lookup_append, PutLog.lookup_eq_none_of_not_mem hb, Option.none_or]
  · have ha : ∀ v, (k, v) ∉ a := not_exists.mp hk
    simp only [List.lookup_append, PutLog.lookup_eq_none_of_not_mem ha, Option.none_or]

/-- The writes of a call and those of the round under way have different keys. -/
theorem Mid.disjoint (hH : HashOk H S) (h : Mid H S p vals s ws) {new : List (Bytes × Bytes)}
    {blkVal : Bytes} (hpre : ∀ w ∈ new, str "skiplist_" <+: w.1) :
    ∀ x ∈ ws.reverse, ∀ y ∈ new ++ [(ledgerKey s.nextBlockSeq, blkVal)], x.1 ≠ y.1 := by
  intro x hx y hy
  rcases h.shape with rfl | ⟨front, d, rfl, hround⟩
  · exact absurd hx List.not_mem_nil
  rcases List.mem_append.mp (List.mem_reverse.mp hx) with hx | hx
  · obtain ⟨hskip, hledger, -⟩ := (hround x hx).apart hH
    rcases List.mem_append.mp hy with hy | hy
    · exact hskip (hpre y hy)
    · rw [List.mem_singleton.mp hy]
      exact hledger _
  · rw [List.mem_singleton.mp hx]
    rcases List.mem_append.mp hy with hy | hy
    · exact ne_of_head? head?_digest (head?_skiplist (hpre y hy)) (by decide)
    · rw [List.mem_singleton.mp hy]
      exact ne_of_head? head?_digest (head?_ledgerKey _) (by decide)

/-- **A call of `Set`**, possibly in the middle of a round. -/
theorem Mid.addBlock (hH : HashOk H S) (hp : p.Ok) (h : Mid H S p vals s ws)
    {new : List (Bytes × Bytes)} (hpre : ∀ w ∈ new, str "skiplist_" <+: w.1) (blkVal : Bytes)
    (keys : List Bytes) (ts : Bytes) (heads : StdMap ℤ) :
    Mid H S (p.addBlock keys ts) (vals ++ [blkVal]) (s.addBlock new blkVal keys ts heads) ws := by
  have hfinal := h.final.addBlock hH hp hpre blkVal keys ts heads
  have hnext : s.nextBlockSeq = vals.length := by
    have hlen := h.length_vals
    have hcount := h.final.next
    rw [settle] at hcount
    split_ifs at hcount <;> exact hcount.trans hlen.symm
  have hwrites : ∀ n c, ∀ w ∈ new ++ [(ledgerKey s.nextBlockSeq, blkVal)],
      Write H S vals.length n c w := by
    rw [hnext]
    exact fun n c => write_addBlock hpre
  have hok : StoreOk H S (s.addBlock new blkVal keys ts heads).db :=
    storeOk_log hH h.store fun w hw => (hwrites 0 0 w hw).chunk_or_text
  have hget : ∀ {k : Bytes} {a : UInt8}, k.head? = some a → a ≠ 115 → a ≠ 108 →
      (s.addBlock new blkVal keys ts heads).db.getString k = s.db.getString k := by
    intro k a hk hs hl
    refine getString_addBlock hpre ?_ (ne_of_head? hk (head?_ledgerKey _) hl)
    rw [hk]
    exact fun heq => hs (Option.some.inj heq)
  refine ⟨?_, hok, fun c hc => ?_, fun c hc => ?_, h.shape⟩
  · rw [settle] at hfinal ⊢
    by_cases hws : ws = []
    · rw [if_pos hws] at hfinal ⊢
      exact hfinal
    rw [if_neg hws] at hfinal ⊢
    -- the writes of the call come before those of the round
    refine hfinal.congr (fun k => ?_) ?_ ⟨?_, h.store.cache⟩
    · exact lookup_append_comm (h.disjoint hH hpre) k
    · intro x hx
      simp only [LedgerDB.addBlock, List.mem_append] at hx ⊢
      tauto
    · intro ch hch v hv
      apply hfinal.store.rocks ch hch v
      simp only [LedgerDB.addBlock, List.mem_append] at hv ⊢
      tauto
  · have hle := length_flatten_take_le p.batches (c + 1)
    have hcount := hp.length_le
    have hvals := h.length_vals
    exact ((h.commits c hc).log hH (hwrites _ s.commitSeq) (by omega) le_rfl
      (Nat.ne_of_lt hc)).vals_append (by omega) blkVal
  · exact (h.digest c hc).congr (hget head?_digest (by decide) (by decide))
      (hget (head?_commitKey _) (by decide) (by decide))

/-! ### What later steps leave as it is -/

/-- The keys of commit `c` with the leaves `xs`: its entry and the nodes of its Merkle tree. -/
def CommitKey (H : Bytes → Hash) (c : ℕ) (xs : List Hash) (k : Bytes) : Prop :=
  k = commitKey (toDecimal c) ∨
    ∃ l j v, (hashLevel H l xs)[j]? = some v ∧ k = storeKey xs.length c l j

theorem CommitKey.head? {c : ℕ} {xs : List Hash} {k : Bytes} (h : CommitKey H c xs k) :
    k.head? = some 99 ∨ k.head? = some 109 := by
  rcases h with rfl | ⟨l, j, v, -, rfl⟩
  · exact Or.inl (head?_commitKey _)
  · exact Or.inr (head?_keyOf l j _)

/-- The blocks of the rounds that have ended. -/
def covered (p : Plan) (s : LedgerDB) : ℕ := (p.batches.take s.commitSeq).flatten.length

/-- Where a world has got to with the steps of `script`. -/
def At (H : Bytes → Hash) (S : Set Bytes) (script done : List Step) (vals : List Bytes) (w : World) :
    Prop :=
  script = done ++ w.todo ∧ Mid H S (plan done) vals w.ledger w.writes

/-- What a step of the other threads leaves of the commits so far. -/
structure Keeps (H : Bytes → Hash) (p p' : Plan) (w w' : World) : Prop where
  seq : w.ledger.commitSeq ≤ w'.ledger.commitSeq
  batches : p'.batches.take w.ledger.commitSeq = p.batches.take w.ledger.commitSeq
  sub : w.ledger.db.rocks ⊆ w'.ledger.db.rocks
  get : ∀ c xs k, c < w.ledger.commitSeq → xs.length ≤ covered p w.ledger → CommitKey H c xs k →
    w'.ledger.db.getString k = w.ledger.db.getString k

/-- A write of a later round is not to a key of commit `c`. -/
theorem RoundWrite.ne_key (hH : HashOk H S) (h : RoundWrite H S n c w) {c' : ℕ} {xs : List Hash}
    {k : Bytes} (hc : c' ≠ c) (hlen : xs.length ≤ n) (hk : CommitKey H c' xs k) : w.1 ≠ k := by
  rcases hk with rfl | ⟨l, j, v, hv, rfl⟩
  · exact (h.write 0).ne_commitKey hH hc
  · exact (h.write 0).ne_storeKey hH hlen hc hv

theorem Plan.step_set (p : Plan) {keys values : List Bytes} {timestamp : ℕ}
    {coins : List (List Bool)} (h : keys.length ≠ 0) :
    p.step (.set keys values timestamp coins) = p.addBlock keys (toDecimal timestamp) := by
  rw [Plan.step, if_neg h]
  rfl

/-- **One step of the other threads.** -/
theorem act_at (hH : HashOk H S) {script done : List Step} (hascii : AsciiSteps script)
    (hchunks : ∀ t ∈ batchTrees .nil (plan script).batches, Chunks H S t) {w w' : World}
    (h : At H S script done vals w) (hact : Act H w w') :
    ∃ done' vals', At H S script done' vals' w' ∧ Keeps H (plan done) (plan done') w w' := by
  obtain ⟨hscript, hmid⟩ := h
  have hp := plan_ok done
  cases hact with
  | @set s s' ws keys values timestamp coins todo r hset =>
    have hscript' : script = (done ++ [.set keys values timestamp coins]) ++ todo := by
      rw [hscript, List.append_assoc]
      rfl
    rcases set_cases hset with ⟨hlen, rfl⟩ | ⟨hlen, blkVal, new, heads, -, hpre, rfl⟩
    · have hplan : plan (done ++ [.set keys values timestamp coins]) = plan done := by
        rw [plan_append, Plan.step, if_pos hlen]
      refine ⟨_, vals, ⟨hscript', by rw [hplan]; exact hmid⟩, ?_⟩
      rw [hplan]
      exact ⟨le_rfl, rfl, List.Subset.refl _, fun _ _ _ _ _ _ => rfl⟩
    · have hplan : plan (done ++ [.set keys values timestamp coins])
          = (plan done).addBlock keys (toDecimal timestamp) := by
        rw [plan_append, Plan.step_set _ hlen]
      refine ⟨_, vals ++ [blkVal], ⟨hscript', ?_⟩, ?_⟩
      · rw [hplan]
        exact hmid.addBlock hH hp hpre blkVal keys _ heads
      · rw [hplan]
        refine ⟨le_rfl, rfl, List.subset_append_right _ _, fun c xs k _ _ hk => ?_⟩
        apply getString_addBlock hpre
        · rcases hk.head? with hk | hk <;> rw [hk] <;> decide
        · rcases hk.head? with hk | hk
          · exact ne_of_head? hk (head?_ledgerKey _) (by decide)
          · exact ne_of_head? hk (head?_ledgerKey _) (by decide)
  | @start s s' n todo hbuild =>
    have hscript' : script = (done ++ [.build n]) ++ todo := by
      rw [hscript, List.append_assoc]
      rfl
    have hsub : batchTrees .nil (plan (done ++ [.build n])).batches
        ⊆ batchTrees .nil (plan script).batches := by
      rw [hscript']
      exact batchTrees_subset_append _ _
    have hqueue : ∀ blk ∈ (plan done).queue, ∀ k ∈ blk.mptKs, Ascii k := fun blk hblk =>
      ascii_plan (fun keys values ts coins hmem => hascii keys values ts coins
        (hscript ▸ List.mem_append_left _ hmem)) blk (List.mem_append_right _ hblk)
    have hmid' := hmid.start hH hp hqueue (chunks_setTrace fun t ht => hchunks t (hsub ht)) hbuild
    rw [← plan_append] at hmid'
    refine ⟨_, vals, ⟨hscript', hmid'⟩, le_rfl, ?_, List.Subset.refl _, fun _ _ _ _ _ _ => rfl⟩
    rw [plan_append, Plan.step]
    split_ifs
    · rfl
    · exact List.take_append_of_le_length hmid.commitSeq_le
  | @write s w ws todo =>
    refine ⟨done, vals, ⟨hscript, hmid.write hH hp⟩, ?_, rfl, List.subset_cons_self _ _, ?_⟩
    · simp only
      split_ifs
      · exact Nat.le_succ _
      · exact le_rfl
    · intro c xs k hc hlen hk
      obtain ⟨front, d, hfront, hround⟩ := hmid.shape.resolve_left (List.cons_ne_nil _ _)
      have hne : w.1 ≠ k := by
        cases front with
        | nil =>
          rw [(List.cons.inj hfront).1]
          rcases hk.head? with hk | hk
          · exact ne_of_head? head?_digest hk (by decide)
          · exact ne_of_head? head?_digest hk (by decide)
        | cons w' front =>
          obtain ⟨rfl, -⟩ := List.cons.inj hfront
          exact (hround w List.mem_cons_self).ne_key hH (Nat.ne_of_lt hc) hlen hk
      show ((w.1, w.2) :: s.db.rocks).lookup k = s.db.rocks.lookup k
      rw [StdMap.lookup_cons_ite, if_neg (Ne.symm hne)]
  | @read s ws todo x hx =>
    obtain ⟨hok, hrocks⟩ := StoreOk.getHash_present hH hmid.store hx
    refine ⟨done, vals, ⟨hscript, hmid.cache hok hrocks⟩, le_rfl, rfl, ?_, fun _ _ k _ _ _ => ?_⟩
    · rw [hrocks]
      exact List.Subset.refl _
    · exact congrArg (List.lookup k) hrocks

/-! ### The prover -/

open Classical in
/-- What a prover can rely on once it knows which commit is the last. -/
noncomputable def knowCommit (H : Bytes → Hash) (S : Set Bytes) (c : ℕ) (xs : List Hash) (db : DB) :
    Query → Option (Option Bytes)
  | .string k => if CommitKey H c xs k then some (db.getString k) else none
  | .hash h => knowStore H S db (.hash h)

/-- A world in which everything of commit `c` is as it was in the store `db`. -/
structure Since (H : Bytes → Hash) (S : Set Bytes) (script : List Step) (c : ℕ) (xs : List Hash)
    (db : DB) (w : World) : Prop where
  state : ∃ done vals, At H S script done vals w ∧ xs.length ≤ covered (plan done) w.ledger
  seq : c < w.ledger.commitSeq
  sub : db.rocks ⊆ w.ledger.db.rocks
  get : ∀ k, CommitKey H c xs k → w.ledger.db.getString k = db.getString k

theorem Since.act (hH : HashOk H S) {script : List Step} (hascii : AsciiSteps script)
    (hchunks : ∀ t ∈ batchTrees .nil (plan script).batches, Chunks H S t) {xs : List Hash} {db : DB}
    {w w' : World} (h : Since H S script c xs db w) (hact : Act H w w') :
    Since H S script c xs db w' := by
  obtain ⟨done, vals, hat, hlen⟩ := h.state
  obtain ⟨done', vals', hat', hkeeps⟩ := act_at hH hascii hchunks hat hact
  refine ⟨⟨done', vals', hat', hlen.trans ?_⟩, h.seq.trans_le hkeeps.seq,
    List.Subset.trans h.sub hkeeps.sub, fun k hk => ?_⟩
  · rw [covered, covered, ← hkeeps.batches]
    have htake := length_flatten_take_le ((plan done').batches.take w'.ledger.commitSeq)
      w.ledger.commitSeq
    rwa [List.take_take, Nat.min_eq_left hkeeps.seq] at htake
  · exact (hkeeps.get c xs k h.seq hlen hk).trans (h.get k hk)

/-- A read of what is known. -/
theorem Since.answer (hH : HashOk H S) {script : List Step} {xs : List Hash} {db : DB}
    (hdb : StoreOk H S db) {w : World} {q : Query} {r : Option Bytes}
    (hq : knowCommit H S c xs db q = some r) (h : Since H S script c xs db w) :
    (World.answer q w).1 = r ∧ Since H S script c xs db (World.answer q w).2 := by
  cases q with
  | string k =>
    simp only [knowCommit] at hq
    split_ifs at hq with hk
    refine ⟨?_, h⟩
    rw [← Option.some.inj hq]
    exact h.get k hk
  | hash x =>
    simp only [knowCommit, knowStore] at hq
    split_ifs at hq with hex
    obtain ⟨ch, hch, rfl, hpres⟩ := hex
    obtain ⟨done, vals, ⟨hscript, hmid⟩, hlen⟩ := h.state
    have hpres' : Present H w.ledger.db ch := hpres.imp_right fun hmem => h.sub hmem
    have hrocks : (DB.answer (.hash (H ch)) w.ledger.db).2.rocks = w.ledger.db.rocks :=
      rocks_answer _ _
    refine ⟨?_, ⟨done, vals, ⟨hscript, hmid.cache (hmid.store.getHash hH.inj hch hpres') hrocks⟩,
      hlen⟩, h.seq, ?_, fun k hk => ?_⟩
    · rw [← Option.some.inj hq, hdb.view_eq hch hpres]
      exact hmid.store.view_eq hch hpres'
    · intro x hx
      rw [World.answer, hrocks]
      exact h.sub hx
    · exact (congrArg (List.lookup k) hrocks).trans (h.get k hk)

/-- Reading text changes nothing. -/
theorem asks_readString (k : Bytes) : (readString k).Asks fun q => ∃ k, q = .string k :=
  ⟨⟨k, rfl⟩, fun _ => trivial⟩

theorem asks_siblings (commitSeq : Bytes) : ∀ (rounds i ptr last : ℕ) (complete : Bool),
    (siblings commitSeq rounds i ptr last complete).Asks fun q => ∃ k, q = .string k
  | 0, _, _, _, _ => trivial
  | rounds + 1, i, ptr, last, complete => by
    rw [siblings]
    refine Ask.Asks.bind ?_ fun s => Ask.Asks.bind (asks_siblings _ _ _ _ _ _) fun _ => trivial
    rw [sibling]
    split_ifs
    · trivial
    all_goals exact (asks_readString _).bind fun _ => trivial

theorem asks_getProof (commitSeq rootKey : Bytes) (tip b : ℕ) :
    (getProof commitSeq rootKey tip b).Asks fun q => ∃ k, q = .string k := by
  rw [getProof]
  refine (asks_readString _).bind fun _ => (asks_readString _).bind fun _ => ?_
  refine (Ask.asks_ofExcept _ _).bind fun _ => (Ask.asks_ofExcept _ _).bind fun _ => ?_
  exact (asks_siblings _ _ _ _ _ _).bind fun _ => trivial

/-- The last commit that the digest names is there for whoever has read the digest. -/
theorem Mid.knows (hH : HashOk H S) {done : List Step} {w : World}
    (h : Mid H S (plan done) vals w.ledger w.writes) (hc : c < w.ledger.commitSeq) :
    ∃ info, Knows H S (knowCommit H S c (leavesOf H vals ((plan done).batches.take (c + 1)))
      w.ledger.db) vals ((plan done).batches.take (c + 1)) c info := by
  have hcommit := h.commits c hc
  obtain ⟨info, hget, hinfo⟩ := hcommit.entry
  have hlen : ((plan done).batches.take (c + 1)).flatten.length ≤ vals.length := by
    have h1 := length_flatten_take_le (plan done).batches (c + 1)
    have h2 := (plan_ok done).length_le
    have h3 := h.length_vals
    omega
  refine ⟨info, ?_, hinfo, length_leavesOf hlen, ?_, hcommit.stored.wf, hcommit.stored.good, ?_⟩
  · have hkey : CommitKey H c (leavesOf H vals ((plan done).batches.take (c + 1)))
        (commitKey (toDecimal c)) := Or.inl rfl
    rw [knowCommit, if_pos hkey, hget]
  · intro l j v hl hv
    have hkey : CommitKey H c (leavesOf H vals ((plan done).batches.take (c + 1)))
        (storeKey (leavesOf H vals ((plan done).batches.take (c + 1))).length c l j) :=
      Or.inr ⟨l, j, v, hv, rfl⟩
    rw [knowCommit, if_pos hkey]
    exact congrArg some (hcommit.merkle l j v hl hv)
  · exact hcommit.stored.held.known h.store hcommit.stored.good.chunks hH.nil

/-- The timestamps in blocks are not empty. -/
theorem mptTs_ne_nil {blk : TreeBlock} : ∀ {steps : List Step} {i : ℕ}, blk ∈ blocksFrom i steps →
    blk.mptTs ≠ []
  | [], _, h => absurd h List.not_mem_nil
  | .set keys values timestamp coins :: steps, i, h => by
    rw [blocksFrom] at h
    split_ifs at h
    · exact mptTs_ne_nil h
    · rcases List.mem_cons.mp h with rfl | h
      · exact toDecimal_ne_nil timestamp
      · exact mptTs_ne_nil h
  | .build n :: steps, i, h => by
    rw [blocksFrom] at h
    exact mptTs_ne_nil h

/-- The blocks up to the tip of a commit, as blocks of the run. -/
theorem batches_take_eq {script done todo : List Step} (hscript : script = done ++ todo) {tip : ℕ}
    (htip : tip + 1 = ((plan done).batches.take (c + 1)).flatten.length) :
    ((plan done).batches.take (c + 1)).flatten = (blocksOf script).take (tip + 1) := by
  have hdone : (plan done).batches.flatten ++ (plan done).queue <+: blocksOf script := by
    have hall : (plan (done ++ todo)).batches.flatten ++ (plan (done ++ todo)).queue
        = (plan done).batches.flatten ++ (plan done).queue ++ blocksFrom (plan done).count todo := by
      rw [plan, List.foldl_append]
      exact blocks_foldl todo (plan done)
    rw [hscript, ← batches_append_queue, hall]
    exact List.prefix_append _ _
  have hfirst : ((plan done).batches.take (c + 1)).flatten <+: blocksOf script := by
    refine List.IsPrefix.trans ?_ ((List.prefix_append _ _).trans hdone)
    rw [← List.take_append_drop (c + 1) (plan done).batches, List.flatten_append]
    simp only [List.take_append_drop]
    exact List.prefix_append _ _
  rw [htip]
  exact List.prefix_iff_eq_take.mp hfirst

/-- The proofs that a call returns: of one commit, all of them right. -/
def ProofsRight (H : Bytes → Hash) (script : List Step) (keys : List Bytes) (keyBlkSeqs : List ℕ)
    (proofs : Proofs) : Prop :=
  List.Forall₂ (fun b p => b ≤ proofs.blkSeq →
      p.digest = proofs.rootDigest ∧ p.verify H = .ok true)
    (changes 0 (keyBlkSeqs.take keys.length)) proofs.mtProofs ∧
  List.Forall₂ (fun key p => Ascii key →
      (∃ blk ∈ (blocksOf script).take (proofs.blkSeq + 1), key ∈ blk.mptKs) →
      p.verifyProof H (Hash.fromBase32 proofs.mptDigest) key = .ok true)
    keys proofs.mptProofs

/-- What follows the digest, from a world in which the commit is there. -/
theorem proofsOf_runs (hH : HashOk H S) {script done : List Step} (hascii : AsciiSteps script)
    (hchunks : ∀ t ∈ batchTrees .nil (plan script).batches, Chunks H S t) {w w' : World}
    (hat : At H S script done vals w) (hc : c < w.ledger.commitSeq) {keys : List Bytes}
    {blks : List ℕ} {r : Except Fault Proofs}
    (hrun : Ask.Runs World.answer (Act H) (proofsOf H c keys blks) w r w') :
    ∃ info, InfoOk H vals ((plan done).batches.take (c + 1)) c info ∧
      (∀ proofs, r = .ok proofs → ProofsRight H script keys blks proofs) ∧
      ((∀ k ∈ keys, Ascii k) → (∀ b ∈ blks, b ≤ info.tipBlock) → keys.length ≤ blks.length →
        ∃ proofs, r = .ok proofs) := by
  obtain ⟨hscript, hmid⟩ := hat
  obtain ⟨info, hknows⟩ := hmid.knows hH hc
  set xs := leavesOf H vals ((plan done).batches.take (c + 1))
  have hblocks := batches_take_eq hscript hknows.info.tipBlock
  -- the rules of the prover
  have hstep : ∀ q r w₁, knowCommit H S c xs w.ledger.db q = some r →
      Since H S script c xs w.ledger.db w₁ →
      (World.answer q w₁).1 = r ∧ Since H S script c xs w.ledger.db (World.answer q w₁).2 :=
    fun q r w₁ hq h => h.answer hH hmid.store hq
  have henv : ∀ w₁ w₂, Act H w₁ w₂ → Since H S script c xs w.ledger.db w₁ →
      Since H S script c xs w.ledger.db w₂ := fun w₁ w₂ hact h => h.act hH hascii hchunks hact
  have hstart : Since H S script c xs w.ledger.db w := by
    refine ⟨⟨done, vals, ⟨hscript, hmid⟩, ?_⟩, hc, List.Subset.refl _, fun _ _ => rfl⟩
    rw [hknows.length_leaves, covered]
    have htake := length_flatten_take_le ((plan done).batches.take w.ledger.commitSeq) (c + 1)
    rwa [List.take_take, Nat.min_eq_left hc] at htake
  obtain ⟨hread, hparse, hopen⟩ := hknows.open_runIn hH.inj hH.nil
  refine ⟨info, hknows.info, ?_, ?_⟩
  · rintro proofs rfl
    rw [proofsOf] at hrun
    obtain ⟨w₁, hgood₁, hrun⟩ := Ask.runs_bind_of_runIn _ hstep henv hread hstart hrun
    rw [hparse] at hrun
    obtain ⟨w₂, hgood₂, hrun⟩ := Ask.runs_bind_of_runIn _ hstep henv hopen hgood₁ hrun
    rcases hrun.bind_inv with ⟨r, w₃, hloop, hret⟩ | ⟨e, he, -⟩
    swap
    · cases he
    have hproofs := Except.ok.inj (Ask.Runs.pure_inv hret)
    have hblks : ∀ blk ∈ ((plan done).batches.take (c + 1)).flatten, blk ∈ blocksOf script :=
      fun blk hblk => List.mem_of_mem_take (hblocks ▸ hblk)
    have hall := proofLoop_runs (A := fun b p => b ≤ info.tipBlock → MtOk H info p)
      (B := fun key p => Ascii key → MptOk H ((plan done).batches.take (c + 1)) info key p) henv
      (fun b w₁ w₂ r hgood hrun => ?_) (fun key w₁ w₂ r hgood hrun => ?_) hgood₂ hloop
    · subst hproofs
      refine ⟨hall.1, hall.2.imp fun key p hp hkey hwritten => hp hkey ?_⟩
      rwa [hblocks]
    · -- a Merkle proof
      refine ⟨hrun.inv _ _ ?_ henv (asks_getProof _ _ _ _) hgood, ?_⟩
      · rintro q w₁ ⟨k, rfl⟩ hgood
        exact hgood
      · rintro p rfl hb
        obtain ⟨p', hp', hok⟩ := hknows.merkle_runIn hb
        have heq := (Ask.runs_of_runIn _ hstep henv hp' hgood hrun).1
        rwa [Except.ok.inj heq]
    · -- a trie proof
      obtain ⟨x, hx⟩ := (tryGetProof_known (Trie.fuelFor (MPTConfig.keybytesToHex key))
        hknows.trie.good hknows.trie.known (MPTConfig.keybytesToHex key) 0 {}).1
      refine ⟨(Ask.runs_of_runIn _ hstep henv hx hgood hrun).2, ?_⟩
      rintro p rfl hkey
      obtain ⟨p', hp', hok⟩ := hknows.mpt_runIn hH.inj
        (fun blk hblk => ascii_plan hascii blk (by rw [batches_append_queue]; exact hblks blk hblk))
        (fun blk hblk => mptTs_ne_nil (hblks blk hblk)) hkey
      have heq := (Ask.runs_of_runIn _ hstep henv hp' hgood hrun).1
      rwa [Except.ok.inj heq]
  · intro hkeys hblks hlen
    obtain ⟨proofs, hproofs⟩ := hknows.proofsOf_runIn hH.inj hH.nil hkeys (fun b hb => by
      obtain ⟨p, hp, -⟩ := hknows.merkle_runIn (hblks b hb)
      exact ⟨p, hp⟩) hlen
    exact ⟨proofs, (Ask.runs_of_runIn _ hstep henv hproofs hstart hrun).1⟩

/-- Where a world can be. -/
theorem at_of_reach (hH : HashOk H S) {script : List Step} (hascii : AsciiSteps script)
    (hchunks : ∀ t ∈ batchTrees .nil (plan script).batches, Chunks H S t) {done : List Step}
    {w w' : World} (h : At H S script done vals w) (hreach : Relation.ReflTransGen (Act H) w w') :
    ∃ done' vals', At H S script done' vals' w' ∧ w.ledger.commitSeq ≤ w'.ledger.commitSeq ∧
      covered (plan done) w.ledger ≤ covered (plan done') w'.ledger := by
  induction hreach with
  | refl => exact ⟨done, vals, h, le_rfl, le_rfl⟩
  | @tail w₁ w₂ _ hact ih =>
    obtain ⟨done₁, vals₁, hat₁, hseq₁, hcov₁⟩ := ih
    obtain ⟨done₂, vals₂, hat₂, hkeeps⟩ := act_at hH hascii hchunks hat₁ hact
    refine ⟨done₂, vals₂, hat₂, hseq₁.trans hkeeps.seq, hcov₁.trans ?_⟩
    rw [covered, covered, ← hkeeps.batches]
    have htake := length_flatten_take_le ((plan done₂).batches.take w₂.ledger.commitSeq)
      w₁.ledger.commitSeq
    rwa [List.take_take, Nat.min_eq_left hkeeps.seq] at htake

/-- **`GetProofs` in every interleaving** with the calls of `Set` and the single writes of the
rounds of `buildTree`: all proofs that it returns are right, and a request for ASCII keys and blocks
that were committed when it was made does not fail. -/
theorem getProofs_interleaved (H : Bytes → Hash) (script : List Step) (hascii : AsciiSteps script)
    (hinj : Set.InjOn H {c | c ∈ runChunks H script})
    (htext : ∀ c ∈ runChunks H script, ¬ TextKey (H c).bytes) (w w' : World)
    (hreach : Relation.ReflTransGen (Act H) { todo := script } w) (hcommit : 0 < w.ledger.commitSeq)
    (keys : List Bytes) (keyBlkSeqs : List ℕ) (r : Except Fault Proofs)
    (hrun : Ask.Runs World.answer (Act H) (getProofs H keys keyBlkSeqs) w r w') :
    (∀ proofs, r = .ok proofs → ProofsRight H script keys keyBlkSeqs proofs) ∧
    ((∀ k ∈ keys, Ascii k) →
      (∀ tip digest, getRootDigest.run w.ledger.db.view = .ok (tip, digest) →
        ∀ b ∈ keyBlkSeqs, b ≤ tip) →
      keys.length ≤ keyBlkSeqs.length → ∃ proofs, r = .ok proofs) := by
  have hH : HashOk H {c | c ∈ runChunks H script} := ⟨hinj, htext, List.mem_cons_self⟩
  have hchunks : ∀ t ∈ batchTrees .nil (plan script).batches,
      Chunks H {c | c ∈ runChunks H script} t := chunks_of_runChunks
  have hinit : At H {c | c ∈ runChunks H script} script [] [] { todo := script } :=
    ⟨rfl, .of_inv inv_empty⟩
  obtain ⟨done, vals, hat, -, -⟩ := at_of_reach hH hascii hchunks hinit hreach
  -- the digest is read in some world `w₁`, where it names a commit that is there
  rw [getProofs_eq] at hrun
  obtain ⟨w₁, hreach₁, hrun⟩ := hrun.ask_inv
  obtain ⟨done₁, vals₁, hat₁, hseq₁, hcov₁⟩ := at_of_reach hH hascii hchunks hat hreach₁
  have hpos : 0 < w₁.ledger.commitSeq := hcommit.trans_le hseq₁
  have hlast : w₁.ledger.commitSeq - 1 + 1 = w₁.ledger.commitSeq := Nat.sub_add_cancel hpos
  obtain ⟨d, hd, hbar, hdseq, -, -⟩ := hat₁.2.digest _ hlast
  change Ask.Runs _ _ (Ask.ofExcept (DigestInfo.ofString
    ((w₁.ledger.db.getString (str "digest")).getD [])) >>= _) w₁ r w' at hrun
  rw [hd, Option.getD_some, DigestInfo.ofString_toBytes hbar] at hrun
  change Ask.Runs _ _ (proofsOf H d.commitSeq keys keyBlkSeqs) w₁ r w' at hrun
  rw [hdseq] at hrun
  obtain ⟨info, hinfo, hright, hreturns⟩ := proofsOf_runs hH hascii hchunks hat₁
    (Nat.sub_lt hpos Nat.one_pos) hrun
  refine ⟨hright, fun hkeys hblks hlen => hreturns hkeys (fun b hb => ?_) hlen⟩
  -- the tip at the call is not behind the one that is read
  obtain ⟨tip, digest, hroot, htip₀⟩ :=
    (hat.2.digest _ (Nat.sub_add_cancel hcommit)).getRootDigest_run
  have hb' := hblks _ _ hroot b hb
  have htip := hinfo.tipBlock
  rw [hlast] at htip
  rw [covered, covered] at hcov₁
  omega

/-! ### Rounds that nobody disturbs -/

/-- The remaining writes of a round can be made. -/
theorem reach_settle (H : Bytes → Hash) (todo : List Step) : ∀ (ws : List (Bytes × Bytes))
    (s : LedgerDB), Relation.ReflTransGen (Act H) ⟨s, ws, todo⟩ ⟨settle s ws, [], todo⟩
  | [], s => .refl
  | w :: ws, s => by
    refine .head .write ?_
    have hrest := reach_settle H todo ws { s with
      db := { s.db with rocks := w :: s.db.rocks }
      commitSeq := if ws = [] then s.commitSeq + 1 else s.commitSeq }
    have hsame : settle { s with
        db := { s.db with rocks := w :: s.db.rocks }
        commitSeq := if ws = [] then s.commitSeq + 1 else s.commitSeq } ws = settle s (w :: ws) := by
      rw [settle, settle, if_neg (List.cons_ne_nil w ws)]
      split_ifs with hws
      · rw [hws]
        rfl
      · simp only [List.reverse_cons, List.append_assoc, List.singleton_append]
    rwa [hsame] at hrest

/-- A call or a whole round. -/
def wholeStep (H : Bytes → Hash) (s : LedgerDB) : Step → Except Fault LedgerDB
  | .set keys values timestamp coins => do return (← s.set keys values timestamp coins).1
  | .build n => do
    let s' ← s.buildTree H n
    return settle { s with treeQueue := s'.treeQueue } (newWrites s.db s'.db)

/-- Calls and whole rounds one after the other are an interleaving. -/
theorem reach_wholeSteps (H : Bytes → Hash) : ∀ {steps : List Step} {s s' : LedgerDB},
    steps.foldlM (wholeStep H) s = .ok s' →
    Relation.ReflTransGen (Act H) ⟨s, [], steps⟩ ⟨s', [], []⟩
  | [], s, s', h => by
    obtain rfl := Except.ok.inj h
    exact .refl
  | st :: steps, s, s', h => by
    rw [List.foldlM_cons] at h
    obtain ⟨s₁, hstep, h⟩ := bind_eq_ok_iff.mp h
    refine Relation.ReflTransGen.trans ?_ (reach_wholeSteps H h)
    cases st with
    | set keys values timestamp coins =>
      obtain ⟨⟨s₂, r⟩, hset, heq⟩ := bind_eq_ok_iff.mp hstep
      obtain rfl := Except.ok.inj heq
      exact .single (.set hset)
    | build n =>
      obtain ⟨s₂, hbuild, heq⟩ := bind_eq_ok_iff.mp hstep
      obtain rfl := Except.ok.inj heq
      exact .head (.start hbuild) (reach_settle H steps _ _)

end

/-- After two rounds, a request for `a` in block 1 is answered with right proofs. -/
theorem getProofs_interleaved_twoRounds :
    AsciiSteps twoRounds ∧ Set.InjOn hashTwo {c | c ∈ runChunks hashTwo twoRounds} ∧
      (∀ c ∈ runChunks hashTwo twoRounds, ¬ TextKey (hashTwo c).bytes) ∧
      ∃ w w' proofs, Relation.ReflTransGen (Act hashTwo) { todo := twoRounds } w ∧
        0 < w.ledger.commitSeq ∧ proofs.blkSeq = 1 ∧ proofs.mtProofs.length = 1 ∧
        Ask.Runs World.answer (Act hashTwo) (getProofs hashTwo [str "a"] [1]) w (.ok proofs) w' ∧
        ProofsRight hashTwo twoRounds [str "a"] [1] proofs := by
  refine ⟨ascii_twoRounds, hashOk_twoRounds.inj, hashOk_twoRounds.text, ?_⟩
  have hcheck : ((twoRounds.foldlM (wholeStep hashTwo) {}).toOption.any fun s =>
      0 < s.commitSeq && (((getProofs hashTwo [str "a"] [1]).exec World.answer
        { ledger := s, todo := [] }).1.toOption.any fun proofs =>
          proofs.blkSeq == 1 && proofs.mtProofs.length == 1)) = true := by decide +kernel
  rcases hsteps : twoRounds.foldlM (wholeStep hashTwo) {} with e | s
  · rw [hsteps] at hcheck
    cases hcheck
  rw [hsteps] at hcheck
  obtain ⟨hpos, hcheck⟩ := Bool.and_eq_true_iff.mp hcheck
  have hruns : Ask.Runs World.answer (Act hashTwo) (getProofs hashTwo [str "a"] [1])
      { ledger := s, todo := [] } _ _ := Ask.runs_exec _ _
  rcases hexec : ((getProofs hashTwo [str "a"] [1]).exec World.answer
    { ledger := s, todo := [] }).1 with e | proofs
  · rw [hexec] at hcheck
    cases hcheck
  rw [hexec] at hcheck hruns
  obtain ⟨htip, hlen⟩ := Bool.and_eq_true_iff.mp hcheck
  have hreach := reach_wholeSteps hashTwo hsteps
  have hpos : 0 < s.commitSeq := of_decide_eq_true hpos
  exact ⟨_, _, proofs, hreach, hpos, beq_iff_eq.mp htip, beq_iff_eq.mp hlen, hruns,
    (getProofs_interleaved hashTwo twoRounds ascii_twoRounds hashOk_twoRounds.inj
      hashOk_twoRounds.text _ _ hreach hpos _ _ _ hruns).1 proofs rfl⟩

end LedgerDatabase.Ledgerdb.LedgerDB
