import LedgerDatabase.Common.Equiv.Chunk
import LedgerDatabase.Distributed.TCPTransport

/-!
# What is read from a connection is what was sent on it

The receiver recognises the end of every frame that the sender writes (`delimits_readFrame`), so
that the messages of a connection are dispatched one after the other however the bytes arrive.
-/

namespace LedgerDatabase.Distributed

namespace TCPTransport

/-! ### A frame -/

theorem assert_of {p : Prop} [Decidable p] (h : p) : assert p = .ok () := if_pos h

theorem fill_eq {m : Message} (hdata : m.data ≠ []) : fill m = .ok m.frame := by
  have hpos := List.length_pos_iff.mpr hdata
  have htotal : m.totalLen = 28 + m.type.length + m.data.length := by
    rw [Message.totalLen]
    omega
  rw [fill]
  repeat rw [assert_of (by omega), ok_bind]
  rfl

theorem length_frame (m : Message) : m.frame.length = m.totalLen := by
  simp only [Message.frame, Message.totalLen, List.length_append, length_leBytes]
  omega

/-- A part of a buffer that is known piece by piece. -/
theorem copy_append {a b c : Bytes} {off n : ℕ} (hoff : off = a.length) (hn : n = b.length) :
    copy (a ++ (b ++ c)) off n = .ok b := by
  rw [copy, if_pos]
  · rw [hoff, hn, List.drop_left, List.take_left]
  · simp only [List.length_append]
    omega

theorem copy_append_last {a b : Bytes} {off n : ℕ} (hoff : off = a.length) (hn : n = b.length) :
    copy (a ++ b) off n = .ok b := by
  have h := copy_append (c := []) hoff hn
  rwa [List.append_nil] at h

theorem leNat_leBytes_of_lt {n : ℕ} (h : n < 2 ^ 64) : leNat (leBytes 8 n) = n := by
  rw [leNat_leBytes]
  exact Nat.mod_eq_of_lt h

variable {m : Message}

/-- The receiver takes a frame apart as the sender put it together. -/
theorem parse_frame (hdata : m.data ≠ []) (hlen : m.totalLen < 1073741826) :
    parse m.frame m.totalLen = .ok m := by
  have hpos := List.length_pos_iff.mpr hdata
  have htotal : m.totalLen = 28 + m.type.length + m.data.length := by
    rw [Message.totalLen]
    omega
  have htype : copy m.frame 12 8 = .ok (leBytes 8 m.type.length) := by
    rw [Message.frame, ← List.append_assoc]
    apply copy_append
    · rw [List.length_append, length_leBytes, length_leBytes]
    · rw [length_leBytes]
  have hmsgType : copy m.frame 20 m.type.length = .ok m.type := by
    rw [Message.frame, ← List.append_assoc, ← List.append_assoc]
    apply copy_append _ rfl
    simp only [List.length_append, length_leBytes]
  have hmsgLen : copy m.frame (20 + m.type.length) 8 = .ok (leBytes 8 m.data.length) := by
    rw [Message.frame, ← List.append_assoc, ← List.append_assoc, ← List.append_assoc]
    apply copy_append
    · simp only [List.length_append, length_leBytes]
    · rw [length_leBytes]
  have hmsg : copy m.frame (28 + m.type.length) m.data.length = .ok m.data := by
    rw [Message.frame, ← List.append_assoc, ← List.append_assoc, ← List.append_assoc,
      ← List.append_assoc]
    apply copy_append_last _ rfl
    simp only [List.length_append, length_leBytes]
    omega
  have hmod (n : ℕ) (hn : n ≤ m.totalLen) : n % 2 ^ 64 = n := Nat.mod_eq_of_lt (by omega)
  rw [parse, htype, ok_bind, leNat_leBytes_of_lt (by omega), assert_of (by omega), ok_bind,
    assert_of (by rw [hmod _ (by omega)]; omega), ok_bind, hmsgType, ok_bind, hmsgLen, ok_bind,
    leNat_leBytes_of_lt (by omega), assert_of (by omega), ok_bind,
    assert_of (by rw [hmod _ (by omega)]; omega), ok_bind, hmsg]
  rfl

/-- The magic number in front of a frame, once it has arrived. -/
theorem leNat_take (m : Message) (rest : Bytes) : leNat ((m.frame ++ rest).take 4) = magic := by
  rw [Message.frame, List.append_assoc, List.take_left' (length_leBytes ..), leNat_leBytes]
  rfl

/-- The length behind it. -/
theorem leNat_drop (hlen : m.totalLen < 1073741826) (rest : Bytes) :
    leNat (((m.frame ++ rest).drop 4).take 8) = m.totalLen := by
  rw [Message.frame, List.append_assoc, List.drop_left' (length_leBytes ..), List.append_assoc,
    List.take_left' (length_leBytes ..), leNat_leBytes_of_lt (by omega)]

/-! ### The receiver recognises the end of a frame -/

variable {α : Type} {addr : α}

theorem readFrame_whole (hdata : m.data ≠ []) (hlen : m.totalLen < 1073741826) (rest : Bytes) :
    readFrame (some addr) (m.frame ++ rest) = .ok (some ((addr, m), rest)) := by
  have hpos : 28 ≤ m.totalLen := by
    rw [Message.totalLen]
    omega
  have hlength : (m.frame ++ rest).length = m.totalLen + rest.length := by
    rw [List.length_append, length_frame]
  rw [readFrame, if_neg (by omega), assert_of (leNat_take m rest), ok_bind, if_neg (by omega)]
  simp only [leNat_drop hlen rest]
  rw [assert_of hlen, ok_bind, if_neg (by omega), List.take_left' (length_frame m),
    parse_frame hdata hlen, ok_bind, List.drop_left' (length_frame m)]
  rfl

/-- A part of a frame dispatches nothing, wherever it ends. -/
theorem readFrame_incomplete (hlen : m.totalLen < 1073741826) {input : Bytes}
    (hpre : input <+: m.frame) (hne : input ≠ m.frame) : readFrame (some addr) input = .ok none := by
  have hlt : input.length < m.totalLen := by
    by_contra hle
    apply hne
    apply hpre.eq_of_length_le
    rw [length_frame]
    omega
  obtain ⟨rest, hrest⟩ := hpre
  have htake (k : ℕ) (hk : k ≤ input.length) : input.take k = m.frame.take k := by
    rw [← hrest, List.take_append_of_le_length hk]
  rw [readFrame]
  by_cases h4 : input.length < 4
  · exact if_pos h4
  have hmagic : leNat (input.take 4) = magic := by
    rw [htake 4 (by omega)]
    have h := leNat_take m []
    rwa [List.append_nil] at h
  rw [if_neg h4, assert_of hmagic, ok_bind]
  by_cases h12 : input.length < 12
  · rw [if_pos h12]
    rfl
  have htotal : leNat ((input.drop 4).take 8) = m.totalLen := by
    rw [List.take_drop, htake (4 + 8) (by omega), ← List.take_drop]
    have h := leNat_drop hlen []
    rwa [List.append_nil] at h
  rw [if_neg h12]
  simp only [htotal]
  rw [assert_of hlen, ok_bind, if_pos hlt]
  rfl

/-- A message that the receiver takes. -/
def Sendable (m : Message) : Prop := m.data ≠ [] ∧ m.totalLen < 1073741826

theorem delimits_readFrame (addr : α) :
    Frames.Delimits (readFrame (some addr)) (fun d => d.2.frame)
      fun d : α × Message => d.1 = addr ∧ Sendable d.2 where
  nil := rfl
  ne_nil d hd h := by
    have hlen := length_frame d.2
    rw [h, Message.totalLen] at hlen
    exact absurd hlen (by simp)
  whole d hd rest := by
    obtain ⟨rfl, hdata, hlen⟩ := hd
    exact readFrame_whole hdata hlen rest
  incomplete d hd input hpre hne := readFrame_incomplete hd.2.2 hpre hne

/-! ### A connection -/

section

variable [DecidableEq α] {t : TCPTransport α} {bev : Option ℕ} {dst : α} {ev : ℕ}

/-- A message is written behind what was written before, on the same connection. -/
theorem sendMessageInternal_eq (hev : (t.tcpOutgoing dst).or bev = some ev) (hdata : m.data ≠ []) :
    ∃ t', t.sendMessageInternal bev dst m = .ok t' ∧ t'.tcpOutgoing dst = some ev ∧
      t'.output ev = t.output ev ++ m.frame := by
  cases hdst : t.tcpOutgoing dst with
  | some ev' =>
    rw [hdst] at hev
    cases hev
    refine ⟨t.write ev m.frame, ?_, hdst, Function.update_self ..⟩
    simp only [sendMessageInternal, hdst, Option.isNone_some, Bool.false_eq_true, if_false,
      fill_eq hdata]
    rfl
  | none =>
    rw [hdst, Option.none_or] at hev
    subst hev
    have hconnect : (t.register ev dst).tcpOutgoing dst = some ev := Function.update_self ..
    refine ⟨(t.register ev dst).write ev m.frame, ?_, hconnect, Function.update_self ..⟩
    simp only [sendMessageInternal, hdst, Option.isNone_none, if_true, connectTCP, hconnect,
      fill_eq hdata]
    rfl

theorem sendAll_eq {ms : List Message} (hev : (t.tcpOutgoing dst).or bev = some ev)
    (hms : ∀ m ∈ ms, m.data ≠ []) :
    ∃ t', t.sendAll bev dst ms = .ok t' ∧
      t'.output ev = t.output ev ++ Frames.stream Message.frame ms := by
  induction ms generalizing t with
  | nil => exact ⟨t, rfl, (List.append_nil _).symm⟩
  | cons m ms ih =>
    obtain ⟨t₁, hrun, hdst, hout⟩ := sendMessageInternal_eq hev (hms m List.mem_cons_self)
    have hev₁ : (t₁.tcpOutgoing dst).or bev = some ev := by rw [hdst, Option.some_or]
    obtain ⟨t', hrun', hout'⟩ := ih hev₁ fun m' hm' => hms m' (List.mem_cons_of_mem _ hm')
    refine ⟨t', ?_, ?_⟩
    · rw [sendAll, List.foldlM_cons, hrun, ok_bind]
      exact hrun'
    · rw [hout', hout, Frames.stream_cons, List.append_assoc]

end

theorem stream_map (addr : α) (ms : List Message) :
    Frames.stream (fun d : α × Message => d.2.frame) (ms.map (addr, ·)) =
      Frames.stream Message.frame ms := by
  rw [Frames.stream, Frames.stream, List.flatMap_map]

theorem incomplete_map {addr : α} {ms : List Message} {rest : Bytes}
    (h : Frames.Incomplete (fun d : α × Message => d.2.frame) (ms.map (addr, ·)) rest) :
    Frames.Incomplete Message.frame ms rest := by
  cases ms with
  | nil =>
    cases h
    exact Frames.Incomplete.nil
  | cons m ms =>
    cases h with
    | cons hpre hne => exact Frames.Incomplete.cons hpre hne

/-- **Messages that are sent on a connection are dispatched**, each once and in order, when their
last byte has arrived: for every part of the stream that has arrived, in whatever pieces, the
messages of the whole frames in it have been dispatched, and what is left is the beginning of the
next frame. -/
theorem receiveAll_of_sendAll {β : Type} [DecidableEq α] (t : TCPTransport α) (bev : Option ℕ)
    (dst : α) (ev : ℕ) (hev : (t.tcpOutgoing dst).or bev = some ev) (hnew : t.output ev = [])
    (r : TCPTransport β) (bev' : ℕ) (hbev' : bev' ∈ r.events) (ms : List Message)
    (hms : ∀ m ∈ ms, Sendable m) :
    ∃ t' addr, t.sendAll bev dst ms = .ok t' ∧ r.tcpAddresses bev' = some addr ∧
      ∀ arrivals : List Bytes, arrivals.flatten <+: t'.output ev →
        ∃ done todo rest, ms = done ++ todo ∧
          arrivals.flatten = Frames.stream Message.frame done ++ rest ∧
          Frames.Incomplete Message.frame todo rest ∧
          (arrivals.flatten = t'.output ev → todo = [] ∧ rest = []) ∧
          r.receiveAll bev' arrivals = .ok (done.map (addr, ·), rest) := by
  obtain ⟨t', hsend, hout⟩ := sendAll_eq hev fun m hm => (hms m hm).1
  obtain ⟨addr, haddr⟩ := Option.isSome_iff_exists.mp (r.known bev' hbev')
  refine ⟨t', addr, hsend, haddr, ?_⟩
  intro arrivals harrivals
  rw [hnew, List.nil_append] at hout
  rw [hout, ← stream_map addr] at harrivals
  have hmap : ∀ d ∈ ms.map (addr, ·), d.1 = addr ∧ Sendable d.2 := by
    intro d hd
    obtain ⟨m, hm, rfl⟩ := List.mem_map.mp hd
    exact ⟨rfl, hms m hm⟩
  obtain ⟨done, todo, rest, heq, hflat, hrest, hrun⟩ :=
    (delimits_readFrame addr).feedAll_of_isPrefixOf Fault.diverges hmap harrivals
  obtain ⟨done, todo, rfl, rfl, rfl⟩ := List.map_eq_append_iff.mp heq
  rw [stream_map] at hflat
  have hrest' := incomplete_map hrest
  refine ⟨done, todo, rest, rfl, hflat, hrest', ?_, ?_⟩
  · intro hall
    apply hrest'.eq_nil
    rw [hflat, hout, Frames.stream_append] at hall
    exact List.append_cancel_left hall
  · rw [receiveAll, ← hrun, Frames.feedAll]
    unfold tcpReadableCallback
    rw [haddr]

/-- Two messages that arrive in three pieces, on a connection that the receiver has accepted. -/
theorem receiveAll_of_sendAll_two :
    ∃ t' addr, (empty : TCPTransport ℕ).sendAll (some 1) 5 [⟨str "a", [7]⟩, ⟨str "b", [8, 9]⟩] = .ok t' ∧
      ((empty : TCPTransport ℕ).register 2 6).tcpAddresses 2 = some addr ∧
      ∀ arrivals : List Bytes, arrivals.flatten <+: t'.output 1 →
        ∃ done todo rest, [⟨str "a", [7]⟩, ⟨str "b", [8, 9]⟩] = done ++ todo ∧
          arrivals.flatten = Frames.stream Message.frame done ++ rest ∧
          Frames.Incomplete Message.frame todo rest ∧
          (arrivals.flatten = t'.output 1 → todo = [] ∧ rest = []) ∧
          ((empty : TCPTransport ℕ).register 2 6).receiveAll 2 arrivals =
            .ok (done.map (addr, ·), rest) :=
  receiveAll_of_sendAll empty (some 1) 5 1 rfl rfl (empty.register 2 6) 2 List.mem_cons_self _
    (by unfold Sendable; decide)

end TCPTransport

end LedgerDatabase.Distributed
