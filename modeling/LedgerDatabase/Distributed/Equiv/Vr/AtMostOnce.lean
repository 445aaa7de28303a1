import LedgerDatabase.Common.Equiv.Bytes
import LedgerDatabase.Distributed.TimeServer

/-!
# At-most-once execution

A leader executes only requests that are newer than everything it has executed for their client
(`handleRequest_cases`), so whatever arrives how often and in which order, the executed requests of
a client increase, and the last one is answered again with the stored reply
(`at_most_once_timestamps`).
-/

namespace LedgerDatabase.Distributed.Vr

namespace VRReplica

variable {A : Type} {c : Configuration} {app : App A} {r r' : VRReplica A}

/-! ### One request -/

/-- The executed requests of a client, oldest first. -/
def executed (r : VRReplica A) (clientid : ℕ) : List Upcall :=
  r.upcalls.filter fun u => u.request.clientid = clientid

/-- A reply carries the result of an upcall. -/
def Answers (reply : ReplyMessage) (u : Upcall) : Prop :=
  reply.clientreqid = u.request.clientreqid ∧ reply.reply = u.res

/-- The address of a client is noted. -/
def withAddress (remote : ℕ) (req : Request) (r : VRReplica A) : VRReplica A :=
  { r with clientAddresses := Function.update r.clientAddresses req.clientid (some remote) }

/-- What the execution of a request does. -/
structure Executes (app : App A) (remote : ℕ) (req : Request) (r r' : VRReplica A) : Prop where
  status : r'.status = r.status
  view : r'.view = r.view
  myIdx : r'.myIdx = r.myIdx
  upcall : ∃ u reply, u.request = req ∧ Answers reply u ∧
    app.leaderUpcall r.lastCommitted req.op r.app = (u.replicate, u.res, r'.app) ∧
    r'.upcalls = r.upcalls ++ [u] ∧
    r'.clientTable =
      Function.update r.clientTable req.clientid (some ⟨req.clientreqid, true, reply⟩) ∧
    r'.outbox = r.outbox ++ [.toClient remote reply]

theorem executes_execute (remote : ℕ) (req : Request) (r : VRReplica A) {e : ClientTableEntry}
    (he : e.lastReqId = req.clientreqid) :
    Executes app remote req r
      (execute app remote req
        { r with clientTable := Function.update r.clientTable req.clientid (some e) }) := by
  rcases hup : app.leaderUpcall r.lastCommitted req.op r.app with ⟨replicate, res, a⟩
  simp only [execute, hup]
  cases replicate with
  | false =>
    refine ⟨rfl, rfl, rfl, ⟨req, false, res⟩, ⟨0, 0, req.clientreqid, res⟩, rfl, ⟨rfl, rfl⟩, ?_⟩
    simp [send, hup, he]
  | true =>
    refine ⟨rfl, rfl, rfl, ⟨req, true, res⟩, ⟨r.view, r.lastOp + 1, req.clientreqid, res⟩, rfl,
      ⟨rfl, rfl⟩, ?_⟩
    simp [send, hup, he]

variable (app) in
/-- **A request at a leader**: it is known, and at most the stored reply is sent again, or it is
executed. -/
theorem handleRequest_cases (hnormal : r.status = .normal) (hleader : r.amLeader c) (remote : ℕ)
    (req : Request) :
    (r.isDuplicate req ∧
      r.handleRequest c app remote req = .ok ((r.withAddress remote req).resendReply remote req)) ∨
    (¬ r.isDuplicate req ∧ ∃ r', r.handleRequest c app remote req = .ok r' ∧
      Executes app remote req (r.withAddress remote req) r') := by
  unfold handleRequest
  rw [if_neg (by simp [hnormal]), if_neg (by simp [hleader])]
  dsimp only
  by_cases hdup : r.isDuplicate req
  · exact Or.inl ⟨hdup, if_pos hdup⟩
  · refine Or.inr ⟨hdup, ?_⟩
    -- the entry of the client is older than the request, or it is new
    obtain ⟨e, he, hupdate⟩ : ∃ e : ClientTableEntry, e.lastReqId = req.clientreqid ∧
        (r.withAddress remote req).updateClientTable req = .ok { r.withAddress remote req with
          clientTable := Function.update r.clientTable req.clientid (some e) } := by
      unfold updateClientTable
      dsimp only
      cases hentry : r.clientTable req.clientid with
      | none =>
        rw [if_neg (by simp [withAddress, hentry])]
        refine ⟨_, ?_, rfl⟩
        split
        · rename_i heq
          exact heq
        · rfl
      | some entry =>
        have hlt : entry.lastReqId < req.clientreqid := by
          simpa [isDuplicate, hentry] using hdup
        have hget : ((r.withAddress remote req).clientTable req.clientid).getD {} = entry := by
          simp [withAddress, hentry]
        rw [hget, if_neg (by omega), if_neg (by omega)]
        exact ⟨_, rfl, rfl⟩
    refine ⟨_, ?_, executes_execute remote req (r.withAddress remote req) he⟩
    refine (if_neg hdup).trans ?_
    change (inside .handleRequest ((r.withAddress remote req).updateClientTable req) >>= _) = _
    rw [hupdate]
    rfl

/-! ### Any sequence of requests -/

/-- What a leader has done: the executed requests of a client increase, all of them have been
answered, and the entry of the client in the table is the last one with its reply. -/
structure Served (c : Configuration) (r : VRReplica A) : Prop where
  status : r.status = .normal
  leader : r.amLeader c
  increasing : ∀ clientid,
    ((r.executed clientid).map (·.request.clientreqid)).Pairwise (· < ·)
  answered : ∀ u ∈ r.upcalls,
    ∃ remote reply, Answers reply u ∧ .toClient remote reply ∈ r.outbox
  latest : ∀ clientid u, (r.executed clientid).getLast? = some u → ∃ reply, Answers reply u ∧
    r.clientTable clientid = some ⟨u.request.clientreqid, true, reply⟩ ∧
    ∃ remote, .toClient remote reply ∈ r.outbox

theorem served_of_upcalls_nil (hnormal : r.status = .normal) (hleader : r.amLeader c)
    (h : r.upcalls = []) : Served c r := by
  have hexecuted : ∀ clientid, r.executed clientid = [] := by
    simp [executed, h]
  constructor
  · exact hnormal
  · exact hleader
  · simp [hexecuted]
  · simp [h]
  · simp [hexecuted]

/-- The last executed request of a client is the largest one. -/
theorem Served.le_latest (h : Served c r) {clientid : ℕ} {u u' : Upcall}
    (hu : u ∈ r.executed clientid) (hlast : (r.executed clientid).getLast? = some u') :
    u.request.clientreqid ≤ u'.request.clientreqid := by
  obtain ⟨l, hl⟩ := List.getLast?_eq_some_iff.mp hlast
  have hinc := h.increasing clientid
  rw [hl] at hu hinc
  rw [List.map_append, List.pairwise_append] at hinc
  rcases List.mem_append.mp hu with hu | hu
  · have hlt := hinc.2.2 _ (List.mem_map_of_mem hu) u'.request.clientreqid (by simp)
    omega
  · rw [List.mem_singleton.mp hu]

/-- A request that is not a duplicate is newer than all that have been executed. -/
theorem Served.lt_of_not_duplicate (h : Served c r) {req : Request} (hdup : ¬ r.isDuplicate req)
    {u : Upcall} (hu : u ∈ r.executed req.clientid) :
    u.request.clientreqid < req.clientreqid := by
  cases hlast : (r.executed req.clientid).getLast? with
  | none =>
    rw [List.getLast?_eq_none_iff.mp hlast] at hu
    cases hu
  | some u' =>
    have hle := h.le_latest hu hlast
    obtain ⟨reply, -, htable, -⟩ := h.latest req.clientid u' hlast
    have hlt : u'.request.clientreqid < req.clientreqid := by
      simpa [isDuplicate, htable] using hdup
    omega

/-- A leader that only answers keeps what it has done. -/
theorem Served.of_same (h : Served c r) (hstatus : r'.status = r.status) (hview : r'.view = r.view)
    (hidx : r'.myIdx = r.myIdx) (hupcalls : r'.upcalls = r.upcalls)
    (htable : r'.clientTable = r.clientTable) (houtbox : ∀ out ∈ r.outbox, out ∈ r'.outbox) :
    Served c r' := by
  have hexecuted : ∀ clientid, r'.executed clientid = r.executed clientid := by
    intro clientid
    rw [executed, hupcalls, executed]
  constructor
  · exact hstatus.trans h.status
  · have hleader := h.leader
    rwa [amLeader, ← hview, ← hidx] at hleader
  · intro clientid
    rw [hexecuted]
    exact h.increasing clientid
  · intro u hu
    rw [hupcalls] at hu
    obtain ⟨remote, reply, ha, hout⟩ := h.answered u hu
    exact ⟨remote, reply, ha, houtbox _ hout⟩
  · intro clientid u hlast
    rw [hexecuted] at hlast
    obtain ⟨reply, ha, hentry, remote, hout⟩ := h.latest clientid u hlast
    exact ⟨reply, ha, by rw [htable, hentry], remote, houtbox _ hout⟩

/-- **Executing a request that is not a duplicate.** -/
theorem Served.execute (h : Served c r) {remote : ℕ} {req : Request}
    (hdup : ¬ r.isDuplicate req) (hexec : Executes app remote req (r.withAddress remote req) r') :
    Served c r' := by
  obtain ⟨u, reply, hreq, hanswers, -, hupcalls, htable, houtbox⟩ := hexec.upcall
  have hexecuted : ∀ clientid, r'.executed clientid =
      r.executed clientid ++ if req.clientid = clientid then [u] else [] := by
    intro clientid
    rw [executed, hupcalls, List.filter_append, executed]
    congr 1
    by_cases he : req.clientid = clientid <;> simp [hreq, he]
  have hold : ∀ out ∈ r.outbox, out ∈ r'.outbox := by
    intro out hout
    rw [houtbox]
    exact List.mem_append_left _ hout
  have hnew : .toClient remote reply ∈ r'.outbox := by
    rw [houtbox]
    simp
  constructor
  · exact hexec.status.trans h.status
  · have hleader := h.leader
    rwa [amLeader, show r.view = r'.view from hexec.view.symm,
      show r.myIdx = r'.myIdx from hexec.myIdx.symm] at hleader
  · intro clientid
    rw [hexecuted, List.map_append, List.pairwise_append]
    refine ⟨h.increasing clientid, ?_, ?_⟩
    · split <;> simp
    · intro x hx y hy
      split at hy
      · rename_i he
        subst he
        obtain ⟨u', hu', rfl⟩ := List.mem_map.mp hx
        obtain rfl : y = req.clientreqid := by simpa [hreq] using hy
        exact h.lt_of_not_duplicate hdup hu'
      · cases hy
  · intro u' hu'
    rw [hupcalls] at hu'
    rcases List.mem_append.mp hu' with hu' | hu'
    · obtain ⟨remote', reply', ha, hout⟩ := h.answered u' hu'
      exact ⟨remote', reply', ha, hold _ hout⟩
    · rw [List.mem_singleton.mp hu']
      exact ⟨remote, reply, hanswers, hnew⟩
  · intro clientid u' hlast
    rw [hexecuted] at hlast
    rw [htable]
    by_cases he : req.clientid = clientid
    · subst he
      rw [if_pos rfl, List.getLast?_append, List.getLast?_singleton, Option.some_or] at hlast
      obtain rfl := Option.some.inj hlast
      rw [Function.update_self, hreq]
      exact ⟨reply, hanswers, rfl, remote, hnew⟩
    · rw [if_neg he, List.append_nil] at hlast
      obtain ⟨reply', ha, hentry, remote', hout⟩ := h.latest clientid u' hlast
      rw [Function.update_of_ne fun heq => he heq.symm]
      exact ⟨reply', ha, hentry, remote', hold _ hout⟩

/-- Sending a stored reply again. -/
theorem Served.resend (h : Served c r) (remote : ℕ) (req : Request) :
    Served c ((r.withAddress remote req).resendReply remote req) := by
  unfold resendReply
  split
  · exact h.of_same rfl rfl rfl rfl rfl fun _ => id
  · split
    · exact h.of_same rfl rfl rfl rfl rfl fun _ => List.mem_append_left _
    · exact h.of_same rfl rfl rfl rfl rfl fun _ => id

variable (app) in
theorem Served.handleRequest (h : Served c r) (remote : ℕ) (req : Request) :
    ∃ r', r.handleRequest c app remote req = .ok r' ∧ Served c r' := by
  obtain ⟨-, heq⟩ | ⟨hdup, r', heq, hexec⟩ :=
    handleRequest_cases app h.status h.leader remote req
  · exact ⟨_, heq, h.resend remote req⟩
  · exact ⟨r', heq, h.execute hdup hexec⟩

variable (app) in
/-- **Every sequence of requests** is served. -/
theorem Served.handleRequests (h : Served c r) (msgs : List (ℕ × Request)) :
    ∃ r', handleRequests c app msgs r = .ok r' ∧ Served c r' := by
  induction msgs generalizing r with
  | nil => exact ⟨r, rfl, h⟩
  | cons msg msgs ih =>
    obtain ⟨remote, req⟩ := msg
    obtain ⟨r₁, heq, h₁⟩ := h.handleRequest app remote req
    obtain ⟨r', hrest, h'⟩ := ih h₁
    refine ⟨r', ?_, h'⟩
    rw [VRReplica.handleRequests, heq]
    exact hrest

/-- No request of a client is executed twice. -/
theorem Served.nodup (h : Served c r) :
    (r.upcalls.map fun u => (u.request.clientid, u.request.clientreqid)).Nodup := by
  rw [List.Nodup, List.pairwise_map]
  have hall : ∀ clientid, (r.upcalls.filter fun u => u.request.clientid = clientid).Pairwise
      fun u u' => u.request.clientreqid < u'.request.clientreqid := by
    intro clientid
    exact List.pairwise_map.mp (h.increasing clientid)
  generalize r.upcalls = l at hall
  induction l with
  | nil => exact List.Pairwise.nil
  | cons u l ih =>
    refine List.Pairwise.cons ?_ (ih fun clientid => ?_)
    · intro u' hu' heq
      obtain ⟨hid, hreq⟩ := Prod.mk.inj heq
      have hpair := hall u.request.clientid
      rw [List.filter_cons_of_pos (by simp)] at hpair
      have hlt := (List.pairwise_cons.mp hpair).1 u' (List.mem_filter.mpr ⟨hu', by simp [hid]⟩)
      omega
    · exact (hall clientid).sublist ((List.sublist_cons_self u l).filter _)

/-- The last executed request of a client, when it arrives again: nothing is executed, and the
stored reply is sent. -/
theorem Served.resend_latest (h : Served c r) {u : Upcall} {clientid : ℕ}
    (hlast : (r.executed clientid).getLast? = some u) :
    ∃ reply, Answers reply u ∧ (∃ remote, .toClient remote reply ∈ r.outbox) ∧
      ∀ remote req, req.clientid = clientid → req.clientreqid = u.request.clientreqid →
        r.handleRequest c app remote req =
          .ok ((r.withAddress remote req).send (.toClient remote reply)) := by
  obtain ⟨reply, hanswers, htable, hout⟩ := h.latest clientid u hlast
  refine ⟨reply, hanswers, hout, fun remote req hid hreq => ?_⟩
  obtain ⟨-, heq⟩ | ⟨hdup, -⟩ := handleRequest_cases app h.status h.leader remote req
  · rw [heq, resendReply]
    simp [withAddress, hid, htable, hreq]
  · exact absurd (by simp [isDuplicate, hid, htable, hreq]) hdup

/-! ### Timestamps -/

/-- The results of `TimeStampServer` count up. -/
theorem timestamps_handleRequests {r r' : VRReplica TimeStampServer} (h : Served c r)
    (msgs : List (ℕ × Request))
    (hrun : handleRequests c TimeStampServer.app msgs r = .ok r') :
    ∃ n, r'.app.ts = r.app.ts + n ∧ r'.upcalls.map (·.res) =
      r.upcalls.map (·.res) ++ (List.range' (r.app.ts + 1) n).map toDecimal := by
  induction msgs generalizing r with
  | nil =>
    obtain rfl := Except.ok.inj hrun
    exact ⟨0, rfl, by simp⟩
  | cons msg msgs ih =>
    obtain ⟨remote, req⟩ := msg
    rw [VRReplica.handleRequests] at hrun
    obtain ⟨-, heq⟩ | ⟨hdup, r₁, heq, hexec⟩ :=
      handleRequest_cases TimeStampServer.app h.status h.leader remote req
    · rw [heq] at hrun
      have hsame : ((r.withAddress remote req).resendReply remote req).app = r.app ∧
          ((r.withAddress remote req).resendReply remote req).upcalls = r.upcalls := by
        unfold resendReply
        split
        · exact ⟨rfl, rfl⟩
        · split <;> exact ⟨rfl, rfl⟩
      obtain ⟨n, hts, hres⟩ := ih (h.resend remote req) hrun
      rw [hsame.1] at hts hres
      rw [hsame.2] at hres
      exact ⟨n, hts, hres⟩
    · rw [heq] at hrun
      obtain ⟨u, reply, -, -, hup, hupcalls, -⟩ := hexec.upcall
      obtain ⟨-, hup⟩ := Prod.mk.inj hup
      obtain ⟨hu, happ⟩ := Prod.mk.inj hup
      obtain ⟨n, hts, hres⟩ := ih (h.execute hdup hexec) hrun
      rw [← happ] at hts hres
      refine ⟨n + 1, ?_, ?_⟩
      · rw [hts]
        change r.app.ts + 1 + n = _
        omega
      · rw [hres, hupcalls, List.map_append, List.map_singleton, ← hu, List.append_assoc,
          List.range'_succ]
        rfl

/-- **At-most-once execution**, for every sequence of requests at a leader, and increasing
timestamps. -/
theorem at_most_once_timestamps (c : Configuration) :
    (∀ (A : Type) (app : App A) (r₀ : VRReplica A) (msgs : List (ℕ × Request)),
      r₀.status = .normal → r₀.amLeader c → r₀.upcalls = [] →
      ∃ r, handleRequests c app msgs r₀ = .ok r ∧
        (r.upcalls.map fun u => (u.request.clientid, u.request.clientreqid)).Nodup ∧
        (∀ clientid, ((r.executed clientid).map (·.request.clientreqid)).Pairwise (· < ·)) ∧
        ∀ clientid u, (r.executed clientid).getLast? = some u →
          ∃ reply, Answers reply u ∧ (∃ remote, .toClient remote reply ∈ r.outbox) ∧
            ∀ remote req, req.clientid = clientid → req.clientreqid = u.request.clientreqid →
              r.handleRequest c app remote req =
                .ok ((r.withAddress remote req).send (.toClient remote reply))) ∧
    ∀ (r₀ : VRReplica TimeStampServer) (msgs : List (ℕ × Request)),
      r₀.status = .normal → r₀.amLeader c → r₀.upcalls = [] →
      ∃ r, handleRequests c TimeStampServer.app msgs r₀ = .ok r ∧
        (∀ u ∈ r.upcalls, ∃ remote reply, Answers reply u ∧ .toClient remote reply ∈ r.outbox) ∧
        (r.upcalls.map (·.res)).Nodup ∧
        ∃ stamps : List ℕ, stamps.Pairwise (· < ·) ∧
          r.upcalls.map (·.res) = stamps.map toDecimal := by
  constructor
  · intro A app r₀ msgs hnormal hleader hnil
    obtain ⟨r, hrun, h⟩ :=
      (served_of_upcalls_nil hnormal hleader hnil).handleRequests app msgs
    exact ⟨r, hrun, h.nodup, h.increasing, fun clientid u => h.resend_latest⟩
  · intro r₀ msgs hnormal hleader hnil
    have h₀ := served_of_upcalls_nil hnormal hleader hnil
    obtain ⟨r, hrun, h⟩ := h₀.handleRequests TimeStampServer.app msgs
    obtain ⟨n, -, hres⟩ := timestamps_handleRequests h₀ msgs hrun
    rw [hnil, List.map_nil, List.nil_append] at hres
    refine ⟨r, hrun, h.answered, ?_, _, List.pairwise_lt_range', hres⟩
    rw [hres]
    exact List.Nodup.map toDecimal_injective (List.nodup_range' ..)

/-- Two clients, one of which asks twice. -/
theorem at_most_once_timestamps_twice :
    ∃ r, handleRequests ⟨0⟩ TimeStampServer.app [(7, ⟨[], 1, 1⟩), (7, ⟨[], 1, 1⟩), (8, ⟨[], 2, 1⟩)]
        (new ⟨0⟩ 0 {}) = .ok r ∧ (r.upcalls.map (·.res)).Nodup ∧
      (r.upcalls.map fun u => (u.request.clientid, u.request.clientreqid)).Nodup := by
  obtain ⟨honce, hstamps⟩ := at_most_once_timestamps ⟨0⟩
  obtain ⟨r, hrun, hnodup, -, -⟩ := honce _ TimeStampServer.app (new ⟨0⟩ 0 {})
    [(7, ⟨[], 1, 1⟩), (7, ⟨[], 1, 1⟩), (8, ⟨[], 2, 1⟩)] rfl (by decide) rfl
  obtain ⟨r', hrun', -, hres, -⟩ := hstamps (new ⟨0⟩ 0 {})
    [(7, ⟨[], 1, 1⟩), (7, ⟨[], 1, 1⟩), (8, ⟨[], 2, 1⟩)] rfl (by decide) rfl
  rw [hrun] at hrun'
  obtain rfl := Except.ok.inj hrun'
  exact ⟨r, hrun, hres, hnodup⟩

end VRReplica

end LedgerDatabase.Distributed.Vr
