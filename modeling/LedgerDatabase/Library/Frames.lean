import Mathlib.Data.List.Infix
import Mathlib.Tactic.Common

/-!
# Frames in a stream

A sender writes the encodings of its messages one after the other, and a receiver takes one message
after the other from the front of what has arrived.  `Decodes next enc` says that `next` takes a
message from the front of any longer input, and `Delimits next enc` that it asks for more while the
encoding is incomplete.

Then it does not matter how the stream is cut into arrivals: after each of them exactly the messages
that are complete have been taken (`feedAll_of_isPrefixOf`).
-/

namespace Frames

variable {ε β μ : Type}

/-- A receiver that takes one message from the front; `none` asks for more. -/
abbrev Next (ε β μ : Type) := List β → Except ε (Option (μ × List β))

/-- Messages are taken until one is incomplete, with `stuck` for a receiver that does not stop. -/
def drain (stuck : ε) (next : Next ε β μ) : (fuel : ℕ) → List β → Except ε (List μ × List β)
  | 0, _ => .error stuck
  | fuel + 1, input => do
    match ← next input with
    | none => return ([], input)
    | some (m, input) => do
      let (ms, input) ← drain stuck next fuel input
      return (m :: ms, input)

/-- What has been taken so far, and what is left of the input. -/
abbrev Received (β μ : Type) := List μ × List β

/-- An arrival: every message takes at least one element of the input. -/
def feed (stuck : ε) (next : Next ε β μ) (r : Received β μ) (arrival : List β) :
    Except ε (Received β μ) := do
  let (ms, input) ← drain stuck next ((r.2 ++ arrival).length + 1) (r.2 ++ arrival)
  return (r.1 ++ ms, input)

/-- One arrival after the other. -/
def feedAll (stuck : ε) (next : Next ε β μ) (r : Received β μ) (arrivals : List (List β)) :
    Except ε (Received β μ) := arrivals.foldlM (feed stuck next) r

/-- The stream of some messages. -/
def stream (enc : μ → List β) (ms : List μ) : List β := ms.flatMap enc

section

variable (enc : μ → List β)

@[simp]
theorem stream_nil : stream enc [] = [] := rfl

@[simp]
theorem stream_cons (m : μ) (ms : List μ) : stream enc (m :: ms) = enc m ++ stream enc ms :=
  List.flatMap_cons

@[simp]
theorem stream_append (ms ms' : List μ) : stream enc (ms ++ ms') = stream enc ms ++ stream enc ms' :=
  List.flatMap_append

theorem stream_singleton (m : μ) : stream enc [m] = enc m := by
  rw [stream_cons, stream_nil, List.append_nil]

end

/-- The receiver takes the messages from their encodings. -/
structure Decodes (next : Next ε β μ) (enc : μ → List β) (P : μ → Prop) : Prop where
  nil : next [] = .ok none
  ne_nil : ∀ m, P m → enc m ≠ []
  whole : ∀ m, P m → ∀ rest, next (enc m ++ rest) = .ok (some (m, rest))

/-- The receiver recognises the ends of the encodings. -/
structure Delimits (next : Next ε β μ) (enc : μ → List β) (P : μ → Prop) : Prop
    extends Decodes next enc P where
  incomplete : ∀ m, P m → ∀ input, input <+: enc m → input ≠ enc m → next input = .ok none

/-- What is left is the beginning of the first of the messages, without its end. -/
inductive Incomplete (enc : μ → List β) : List μ → List β → Prop
  | nil : Incomplete enc [] []
  | cons {m : μ} {ms : List μ} {input : List β} (h : input <+: enc m) (hne : input ≠ enc m) :
    Incomplete enc (m :: ms) input

/-- An incomplete message is not the whole stream. -/
theorem Incomplete.eq_nil {enc : μ → List β} {ms : List μ} {input : List β}
    (h : Incomplete enc ms input) (hinput : input = stream enc ms) : ms = [] ∧ input = [] := by
  cases h with
  | nil => exact ⟨rfl, rfl⟩
  | @cons m ms _ hpre hne =>
    refine absurd ?_ hne
    apply hpre.eq_of_length_le
    rw [hinput, stream_cons, List.length_append]
    omega

variable {stuck : ε} {next : Next ε β μ} {enc : μ → List β} {P : μ → Prop} {ms ms' : List μ}
  {input : List β}

/-- **A part of a stream** is some messages and an incomplete one. -/
theorem exists_of_prefix (hne : ∀ m ∈ ms, enc m ≠ []) {p : List β} (h : p <+: stream enc ms) :
    ∃ done todo, ms = done ++ todo ∧ ∃ rest, p = stream enc done ++ rest ∧ Incomplete enc todo rest := by
  induction ms generalizing p with
  | nil =>
    refine ⟨[], [], rfl, [], ?_, Incomplete.nil⟩
    rw [List.prefix_nil.mp h]
    rfl
  | cons m ms ih =>
    have hm := hne m List.mem_cons_self
    rw [stream_cons] at h
    rcases List.prefix_or_prefix_of_prefix h (List.prefix_append (enc m) _) with hp | hp
    · by_cases heq : p = enc m
      · -- the first message just ends
        subst heq
        cases ms with
        | nil =>
          refine ⟨[m], [], rfl, [], ?_, Incomplete.nil⟩
          rw [stream_singleton, List.append_nil]
        | cons m' ms =>
          refine ⟨[m], m' :: ms, rfl, [], ?_, Incomplete.cons List.nil_prefix ?_⟩
          · rw [stream_singleton, List.append_nil]
          · exact (hne m' (List.mem_cons_of_mem _ List.mem_cons_self)).symm
      · exact ⟨[], m :: ms, rfl, p, rfl, Incomplete.cons hp heq⟩
    · obtain ⟨q, rfl⟩ := hp
      obtain ⟨done, todo, rfl, rest, rfl, hrest⟩ :=
        ih (fun m' hm' => hne m' (List.mem_cons_of_mem _ hm')) ((List.prefix_append_right_inj _).mp h)
      refine ⟨m :: done, todo, rfl, rest, ?_, hrest⟩
      rw [stream_cons, List.append_assoc]

namespace Decodes

theorem length_le (h : Decodes next enc P) (hms : ∀ m ∈ ms, P m) :
    ms.length ≤ (stream enc ms).length := by
  induction ms with
  | nil => exact Nat.zero_le _
  | cons m ms ih =>
    have hpos := List.length_pos_iff.mpr (h.ne_nil m (hms m List.mem_cons_self))
    have hrest := ih fun m' hm' => hms m' (List.mem_cons_of_mem _ hm')
    rw [stream_cons, List.length_append, List.length_cons]
    omega

/-- **Complete messages are taken**, up to an input on which the receiver stops. -/
theorem drain_append (stuck : ε) (h : Decodes next enc P) (hms : ∀ m ∈ ms, P m) (hinput : next input = .ok none)
    {fuel : ℕ} (hfuel : ms.length < fuel) :
    drain stuck next fuel (stream enc ms ++ input) = .ok (ms, input) := by
  induction fuel generalizing ms with
  | zero => exact absurd hfuel (Nat.not_lt_zero _)
  | succ fuel ih =>
    cases ms with
    | nil =>
      rw [stream_nil, List.nil_append, drain, hinput]
      rfl
    | cons m ms =>
      rw [stream_cons, List.append_assoc, drain, h.whole m (hms m List.mem_cons_self)]
      have hrest := ih (fun m' hm' => hms m' (List.mem_cons_of_mem _ hm'))
        (Nat.lt_of_succ_lt_succ hfuel)
      show (drain stuck next fuel (stream enc ms ++ input) >>= fun r =>
        pure (m :: r.1, r.2)) = _
      rw [hrest]
      rfl

/-- A whole stream is taken apart. -/
theorem drain_stream (stuck : ε) (h : Decodes next enc P) (hms : ∀ m ∈ ms, P m) :
    drain stuck next ((stream enc ms).length + 1) (stream enc ms) = .ok (ms, []) := by
  have hdrain := h.drain_append stuck hms h.nil (Nat.lt_succ_of_le (h.length_le hms))
  rwa [List.append_nil] at hdrain

end Decodes

namespace Delimits

theorem next_incomplete (h : Delimits next enc P) (hms : ∀ m ∈ ms, P m)
    (hinput : Incomplete enc ms input) : next input = .ok none := by
  cases hinput with
  | nil => exact h.nil
  | cons hpre hne => exact h.incomplete _ (hms _ List.mem_cons_self) _ hpre hne

/-- **One arrival.** -/
theorem feed_stream (stuck : ε) (h : Delimits next enc P) {done : List μ} {arrival : List β}
    (hms : ∀ m ∈ ms, P m) (hms' : ∀ m ∈ ms', P m) {rest : List β}
    (harrival : input ++ arrival = stream enc ms ++ rest) (hrest : Incomplete enc ms' rest) :
    feed stuck next (done, input) arrival = .ok (done ++ ms, rest) := by
  have hfuel : ms.length < (input ++ arrival).length + 1 := by
    rw [harrival, List.length_append]
    have := h.length_le hms
    omega
  have hdrain : drain stuck next ((input ++ arrival).length + 1) (input ++ arrival) =
      .ok (ms, rest) := by
    conv_lhs => rw [harrival]
    rw [harrival] at hfuel
    exact h.drain_append stuck hms (h.next_incomplete hms' hrest) hfuel
  rw [feed, hdrain]
  rfl

/-- **However the stream is cut into arrivals**, the complete messages have been taken. -/
theorem feedAll_of_isPrefixOf (stuck : ε) (h : Delimits next enc P) (hms : ∀ m ∈ ms, P m) {arrivals : List (List β)}
    (harrivals : arrivals.flatten <+: stream enc ms) :
    ∃ done todo rest, ms = done ++ todo ∧ arrivals.flatten = stream enc done ++ rest ∧
      Incomplete enc todo rest ∧ feedAll stuck next ([], []) arrivals = .ok (done, rest) := by
  have hne : ∀ m ∈ ms, enc m ≠ [] := fun m hm => h.ne_nil m (hms m hm)
  induction arrivals using List.reverseRecOn with
  | nil =>
    obtain ⟨done, todo, heq, rest, hp, hrest⟩ := exists_of_prefix hne (List.nil_prefix)
    obtain ⟨hdone, rfl⟩ := List.append_eq_nil_iff.mp hp.symm
    have hnil : done = [] := by
      rw [← List.length_eq_zero_iff]
      have hlen := h.length_le fun m hm => hms m (heq ▸ List.mem_append_left _ hm)
      rw [hdone] at hlen
      exact Nat.le_zero.mp hlen
    subst hnil
    exact ⟨[], todo, [], heq, rfl, hrest, rfl⟩
  | append_singleton arrivals arrival ih =>
    rw [List.flatten_append, List.flatten_singleton] at harrivals ⊢
    obtain ⟨done, todo, rest, rfl, hflat, hrest, hrun⟩ := ih ((List.prefix_append _ _).trans harrivals)
    -- what is left and the arrival are a part of the stream of the other messages
    have htodo : rest ++ arrival <+: stream enc todo := by
      rw [hflat, List.append_assoc, stream_append] at harrivals
      exact (List.prefix_append_right_inj _).mp harrivals
    obtain ⟨done', todo', rfl, rest', harrival, hrest'⟩ :=
      exists_of_prefix (fun m hm => hne m (List.mem_append_right _ hm)) htodo
    refine ⟨done ++ done', todo', rest', (List.append_assoc _ _ _).symm, ?_, hrest', ?_⟩
    · rw [hflat, List.append_assoc, harrival, stream_append, List.append_assoc]
    · rw [feedAll, List.foldlM_append]
      rw [feedAll] at hrun
      rw [hrun]
      show (feed stuck next (done, rest) arrival >>= pure) = _
      rw [h.feed_stream stuck (fun m hm => hms m (by simp [hm])) (fun m hm => hms m (by simp [hm]))
        harrival hrest']
      rfl

end Delimits

end Frames
