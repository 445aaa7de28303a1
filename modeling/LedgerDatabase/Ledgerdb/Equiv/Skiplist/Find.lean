import LedgerDatabase.Ledgerdb.Equiv.Skiplist.Record
import LedgerDatabase.Library.PutLog

/-!
# Searching a skip list

`Rep` connects the records of a prefix with a chain: the head comes first whatever its key is, and the
other nodes follow with the greatest key first.  Negative keys look like the end of the list to the
source.  A search that starts on any level ends on level zero at the first node that is not to be
passed, so it finds the nodes in the ordered part and the first one behind it (`Rep.find_eq`).
-/

namespace LedgerDatabase.Ledgerdb.SkipList

open SkipChain (Node next next_eq_some Passable stopped stopped_append)

/-- The condition of the `while` loops of `find` and `insert`. -/
def Pass (searchKey key : ℤ) : Prop := -1 < key ∧ searchKey < key

instance (searchKey key : ℤ) : Decidable (Pass searchKey key) := inferInstanceAs (Decidable (_ ∧ _))

/-- The records of a prefix are those of a chain with the head `h`.  The record under the key of the
head is not part of it: nothing reads it. -/
structure Rep (db : DB) (pre : Bytes) (h : Node ℤ Bytes) (ns : List (Node ℤ Bytes)) : Prop where
  head : readRecord db (headKey pre) = (record h ns).toBytes
  headLevel : h.level = maxLevel
  node : ∀ a n b, ns = a ++ n :: b → readRecord db (nodeKey pre n.key) = (record n b).toBytes
  absent : ∀ k, k ∉ (h :: ns).map Node.key → readRecord db (nodeKey pre k) = []
  sorted : ns.Pairwise fun m n => 0 ≤ n.key → n.key < m.key
  clean : ∀ n ∈ h :: ns, Clean n
  nodup : ((h :: ns).map Node.key).Nodup

variable {db : DB} {pre : Bytes} {h y : Node ℤ Bytes} {ns b c : List (Node ℤ Bytes)} {k : ℤ}
  {i level fuel : ℕ}

theorem Rep.passable (hr : Rep db pre h ns) (k : ℤ) : Passable (Pass k) ns :=
  hr.sorted.imp fun {m n} hmn hn => by
    have hlt : n.key < m.key := hmn (by have := hn.1; omega)
    exact ⟨hn.1.trans hlt, hn.2.trans hlt⟩

/-- A chain has at most as many nodes as there are records. -/
theorem Rep.length_le (hr : Rep db pre h ns) : ns.length ≤ db.rocks.length := by
  have hnodup : (ns.map fun n => nodeKey pre n.key).Nodup := by
    have hkeys : (ns.map Node.key).Nodup := (List.nodup_cons.mp hr.nodup).2
    have hinj : Function.Injective (nodeKey pre) := fun k k' h => (nodeKey_inj h).2
    have hnames := hkeys.map hinj
    rwa [List.map_map] at hnames
  have hsub : (ns.map fun n => nodeKey pre n.key) ⊆ db.rocks.map Prod.fst := by
    intro key hkey
    obtain ⟨n, hn, rfl⟩ := List.mem_map.mp hkey
    obtain ⟨a, b, hns⟩ := List.append_of_mem hn
    have hrec := hr.node a n b hns
    rw [readRecord, DB.getString] at hrec
    cases hl : db.rocks.lookup (nodeKey pre n.key) with
    | none =>
      rw [hl] at hrec
      exact absurd hrec.symm (SkipNode.toBytes_ne_nil _)
    | some v => exact List.mem_map_of_mem (PutLog.mem_of_lookup hl)
  simpa using (List.subperm_of_subset hnodup hsub).length_le

/-! ### One level -/

theorem next_of_pass (hpass : Pass k (link i b)) : ∃ key, next i b = some key ∧ link i b = key := by
  cases hnext : next i b with
  | none =>
    rw [link, hnext] at hpass
    exact absurd hpass.1 (by decide)
  | some key => exact ⟨key, rfl, by rw [link, hnext, Option.getD_some]⟩

/-- A link that is to be followed leads past nodes that are to be passed. -/
theorem Rep.follow (hr : Rep db pre h ns) (hb : b <:+ ns) (hpass : Pass k (link i b)) :
    ∃ a n b', b = a ++ n :: b' ∧ i < n.level ∧ n.key = link i b ∧ ∀ m ∈ a ++ [n], Pass k m.key := by
  obtain ⟨key, hnext, hlink⟩ := next_of_pass hpass
  obtain ⟨a, n, b', rfl, -, hlevel, hkey⟩ := next_eq_some.mp hnext
  rw [hlink, ← hkey] at hpass
  refine ⟨a, n, b', rfl, hlevel, hkey.trans hlink.symm, fun m hm => ?_⟩
  rcases List.mem_append.mp hm with hm | hm
  · have hpassable := (hr.passable k).sublist hb.sublist
    exact (List.pairwise_append.mp hpassable).2.2 m hm n List.mem_cons_self hpass
  · rwa [List.mem_singleton.mp hm]

theorem Rep.readNode (hr : Rep db pre h ns) {a : List (Node ℤ Bytes)} {n : Node ℤ Bytes}
    (hb : a ++ n :: b <:+ ns) :
    SkipNode.ofString (readRecord db (nodeKey pre n.key)) = .ok (record n b) := by
  obtain ⟨c, rfl⟩ := hb
  have hclean : Clean n := hr.clean n (by simp)
  rw [hr.node (c ++ a) n b (by simp), ofString_record hclean]

/-- The `while` loop of `find` on one level. -/
theorem Rep.descend_eq (hr : Rep db pre h ns) (hb : b <:+ ns) (hlevel : i < y.level)
    (hfuel : b.length < fuel) :
    ∃ y' c b', descend db pre k i fuel (record y b) = .ok (record y' b') ∧ b = c ++ b' ∧
      i < y'.level ∧ ¬ Pass k (link i b') ∧ ∀ n ∈ c, Pass k n.key := by
  induction fuel generalizing y b with
  | zero => omega
  | succ fuel ih =>
    rw [descend, at?_forward hlevel]
    simp only [ok_bind]
    by_cases hpass : Pass k (link i b)
    · rw [if_pos (show link i b > -1 ∧ link i b > k from hpass)]
      obtain ⟨a, n, b', rfl, hn, hkey, ha⟩ := hr.follow hb hpass
      have hb' : b' <:+ ns := (List.suffix_cons n b').trans ((List.suffix_append a _).trans hb)
      rw [← hkey, hr.readNode hb]
      simp only [ok_bind]
      rw [List.length_append, List.length_cons] at hfuel
      obtain ⟨y', c, b'', heq, rfl, hy', hstop, hc⟩ := ih hb' hn (by omega)
      refine ⟨y', a ++ [n] ++ c, b'', heq, by simp, hy', hstop, fun m hm => ?_⟩
      rcases List.mem_append.mp hm with hm | hm
      · exact ha m hm
      · exact hc m hm
    · rw [if_neg (show ¬ (link i b > -1 ∧ link i b > k) from hpass)]
      exact ⟨y, [], b, rfl, rfl, hlevel, hpass, fun _ hm => absurd hm List.not_mem_nil⟩

/-! ### All levels -/

/-- A key that `find` does not miss: it is not there, or the search stops at it. -/
def Reached (k : ℤ) (ns : List (Node ℤ Bytes)) : Prop :=
  k ∉ ns.map Node.key ∨ (stopped (Pass k) ns).head?.map Node.key = some k

/-- On level zero a search stops at its key. -/
theorem Rep.link_zero (hr : Rep db pre h (c ++ b)) (hc : ∀ n ∈ c, Pass k n.key)
    (hstop : ¬ Pass k (link 0 b)) (hk : (stopped (Pass k) (c ++ b)).head?.map Node.key = some k) :
    link 0 b = k := by
  cases b with
  | nil =>
    rw [stopped_append hc (by simp)] at hk
    cases hk
  | cons n b =>
    have hclean : Clean n := hr.clean n (by simp)
    have hlink : link 0 (n :: b) = n.key := by
      rw [link, SkipChain.next_cons_of_lt hclean.level, Option.getD_some]
    rw [hlink] at hstop ⊢
    rw [stopped_append hc (by simpa using hstop)] at hk
    simpa using hk

theorem Rep.findLevels_eq (hr : Rep db pre h ns) (hhead : k ≠ h.key) (hk : Reached k ns)
    (hns : ns = c ++ b) (hc : ∀ n ∈ c, Pass k n.key) (hpos : 0 < level) (hlevel : level ≤ y.level) :
    findLevels db pre k level (record y b) = .ok (readRecord db (nodeKey pre k)) := by
  induction level generalizing y b c with
  | zero => omega
  | succ i ih =>
    have hb : b <:+ ns := ⟨c, hns.symm⟩
    have hfuel : b.length < db.rocks.length + 1 :=
      Nat.lt_succ_of_le (hb.sublist.length_le.trans hr.length_le)
    obtain ⟨y', c', b', heq, rfl, hy', hstop, hc'⟩ := hr.descend_eq (k := k) hb hlevel hfuel
    rw [findLevels, heq]
    simp only [ok_bind, at?_forward hy']
    by_cases hlink : link i b' = k
    · rw [if_pos hlink]
      rfl
    · rw [if_neg hlink]
      have hcc : ∀ n ∈ c ++ c', Pass k n.key := fun n hn =>
        (List.mem_append.mp hn).elim (hc n) (hc' n)
      rw [← List.append_assoc] at hns
      cases i with
      | zero =>
        rcases hk with hk | hk
        · rw [hr.absent k (by rw [List.map_cons, List.mem_cons, not_or]; exact ⟨hhead, hk⟩)]
          rfl
        · subst hns
          exact absurd (hr.link_zero hcc hstop hk) hlink
      | succ i => exact ih hns hcc (Nat.succ_pos _) hy'.le

theorem nodeLevel_record (hlevel : h.level = maxLevel) (ns : List (Node ℤ Bytes)) :
    ∃ l, nodeLevel (record h ns).forward = .ok l ∧ 0 < l ∧ l ≤ h.level := by
  have hlen : (record h ns).forward.length = maxLevel := by simp [record, hlevel]
  rw [nodeLevel, at?_forward (by rw [hlevel]; decide)]
  simp only [ok_bind]
  split
  · exact ⟨1, rfl, Nat.one_pos, by rw [hlevel]; decide⟩
  · refine ⟨_, rfl, by omega, ?_⟩
    have htake := (List.takeWhile_sublist (fun p => decide (p ≠ -1))
      (l := (record h ns).forward.tail)).length_le
    rw [List.length_tail, hlen, maxLevel] at htake
    rw [hlevel, maxLevel]
    omega

/-- **`find`** returns the record of its key. -/
theorem Rep.find_eq (hr : Rep db pre h ns) (hk : k = h.key ∨ Reached k ns) :
    find db pre k =
      .ok (if k = h.key then (record h ns).toBytes else readRecord db (nodeKey pre k)) := by
  have hlen : ¬ (record h ns).toBytes.length = 0 := by
    simpa using SkipNode.toBytes_ne_nil (record h ns)
  rw [find, ← headKey, hr.head, if_neg hlen, ofString_record (hr.clean h List.mem_cons_self)]
  simp only [ok_bind]
  by_cases hhead : k = h.key
  · rw [if_pos hhead, if_pos (show (record h ns).key = k from hhead.symm)]
    rfl
  · rw [if_neg hhead, if_neg (show ¬ (record h ns).key = k from fun heq => hhead heq.symm)]
    obtain ⟨l, hl, hpos, hle⟩ := nodeLevel_record hr.headLevel ns
    rw [hl]
    simp only [ok_bind]
    exact hr.findLevels_eq hhead (hk.resolve_left hhead) rfl (fun _ hn => absurd hn List.not_mem_nil)
      hpos hle

/-- Without a head nothing is found. -/
theorem find_of_empty (hempty : readRecord db (headKey pre) = []) : find db pre k = .ok [] := by
  rw [find, ← headKey, hempty]
  rfl

end LedgerDatabase.Ledgerdb.SkipList
