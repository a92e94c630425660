import BareHttp.Epoll.Client

/-!
# The request buffer of an epoll client

The state of the server is the table of its connections, and an event is an
accept or a readiness event on one client together with what `recv` returned.
Beside each client the state records what `recv` has delivered on its connection,
so that "the buffer holds exactly what arrived" can be said of a state.

`RequestBufferOk` is that statement, with the bound on `rq_size` and on the length
given to the next `recv`.  It does not survive every event.  The branch for an
incomplete body adds the bytes just read to `rq_size` a second time, which leaves
a gap of as many unwritten bytes and moves the fill level, eventually, past the
end of the array.  `throughout_requestBufferOk_iff` says that nothing else is
wrong: a run keeps the invariant exactly as long as it does not take that branch.
-/

namespace BareHttp
namespace Epoll

open Transition

/-- A client and everything `recv` delivered on its connection. -/
structure Connection where
  cd : ClientData
  delivered : Bytes

/-- The connections of the server, by descriptor.  After a write outside a client's
buffer nothing is known about the memory of the process. -/
structure Server where
  clients : ℕ → Option Connection
  corrupted : Bool

/-- The server before the first accept. -/
def Server.initial : Server := ⟨fun _ => none, false⟩

/-- What the loop reacts to. -/
inductive ServerEvent where
  | accept (fd : ℕ)
  | io (fd : ℕ) (r : RecvResult)
  deriving DecidableEq

/-- The bytes a result delivers. -/
def RecvResult.bytes : RecvResult → Bytes
  | .data bytes => bytes
  | _ => []

/-- Replace one connection. -/
def Server.set (s : Server) (fd : ℕ) (c : Option Connection) : Server :=
  { s with clients := Function.update s.clients fd c }

@[simp] theorem Server.clients_set_self (s : Server) (fd : ℕ) (c : Option Connection) :
    (s.set fd c).clients fd = c := by
  simp [Server.set]

theorem Server.clients_set_of_ne (s : Server) {fd fd' : ℕ} (c : Option Connection)
    (h : fd' ≠ fd) : (s.set fd c).clients fd' = s.clients fd' := by
  simp [Server.set, Function.update_of_ne h]

/-- One event.  An accept returns a descriptor that is not in use; a readiness
event comes from a connection of the table. -/
def serverStep (s : Server) : ServerEvent → Option Server
  | .accept fd =>
    if s.corrupted then none
    else
      match s.clients fd with
      | some _ => none
      | none => some (s.set fd (some ⟨newClient fd, []⟩))
  | .io fd r =>
    if s.corrupted then none
    else
      match s.clients fd with
      | none => none
      | some c =>
        if Admissible c.cd r then
          match clientIo c.cd r with
          | .keep cd => some (s.set fd (some ⟨cd, c.delivered ++ r.bytes⟩))
          | .close _ => some (s.set fd none)
          | .dispatch _ => some (s.set fd none)
          | .corrupt => some { s with corrupted := true }
        else none

/-- **Everything an event can do**: open a connection, close one, keep one with the
delivered bytes recorded, or corrupt the memory. -/
theorem serverStep_cases {s s' : Server} {e : ServerEvent} (h : serverStep s e = some s') :
    (∃ fd, e = .accept fd ∧ s.clients fd = none ∧ s' = s.set fd (some ⟨newClient fd, []⟩)) ∨
    (∃ fd r c, e = .io fd r ∧ s.clients fd = some c ∧ Admissible c.cd r ∧
      ((∃ cd, clientIo c.cd r = .keep cd ∧
          s' = s.set fd (some ⟨cd, c.delivered ++ r.bytes⟩)) ∨
       s' = s.set fd none ∧ (∀ cd, clientIo c.cd r ≠ .keep cd) ∨
       (clientIo c.cd r = .corrupt ∧ s' = { s with corrupted := true }))) := by
  cases e with
  | accept fd =>
    simp only [serverStep] at h
    split_ifs at h
    split at h
    · exact absurd h (by simp)
    · rename_i hc
      exact Or.inl ⟨fd, rfl, hc, (Option.some.inj h).symm⟩
  | io fd r =>
    simp only [serverStep] at h
    split_ifs at h
    split at h
    · exact absurd h (by simp)
    · rename_i c hc
      split_ifs at h with hadm
      refine Or.inr ⟨fd, r, c, rfl, hc, hadm, ?_⟩
      cases hio : clientIo c.cd r with
      | keep cd =>
        rw [hio] at h
        exact Or.inl ⟨cd, rfl, (Option.some.inj h).symm⟩
      | close cause =>
        rw [hio] at h
        exact Or.inr (Or.inl ⟨(Option.some.inj h).symm, by simp⟩)
      | dispatch rq =>
        rw [hio] at h
        exact Or.inr (Or.inl ⟨(Option.some.inj h).symm, by simp⟩)
      | corrupt =>
        rw [hio] at h
        exact Or.inr (Or.inr ⟨rfl, (Option.some.inj h).symm⟩)

/-! ## The invariant -/

/-- The buffer of one client: the fill level is inside the array, the buffer holds
what was delivered, in order and without gaps, and the next receive stays inside
the room that is left. -/
structure ConnectionOk (c : Connection) : Prop where
  rqSize_le : c.cd.rqSize ≤ maxBuffr
  received_eq : c.cd.received = c.delivered
  recvLen_nonneg : 0 ≤ c.cd.recvLen
  recvLen_fits : c.cd.rqSize + CInt.toSizeT c.cd.recvLen ≤ maxBuffr

/-- The invariant of the request buffers, for every client. -/
def RequestBufferOk (s : Server) : Prop :=
  s.corrupted = false ∧ ∀ fd c, s.clients fd = some c → ConnectionOk c

/-- The last two parts of `ConnectionOk` follow from the first. -/
theorem ConnectionOk.intro {c : Connection} (h1 : c.cd.rqSize ≤ maxBuffr)
    (h2 : c.cd.received = c.delivered) : ConnectionOk c where
  rqSize_le := h1
  received_eq := h2
  recvLen_nonneg := by
    unfold ClientData.recvLen
    omega
  recvLen_fits := by
    rw [toSizeT_recvLen h1]
    omega

/-- What holds of every client in every state, whatever the body bookkeeping does:
the third state of the enumeration is never entered, and the padding behind the
header count is clear. -/
structure ClientShape (cd : ClientData) : Prop where
  state_ne : cd.state ≠ .sendingResponse
  pad_eq : cd.httpRq.headersPad = 0

/-- `ClientShape`, for every client. -/
def ServerShape (s : Server) : Prop := ∀ fd c, s.clients fd = some c → ClientShape c.cd

theorem clientShape_keep {cd cd' : ClientData} {r : RecvResult} (hs : ClientShape cd)
    (h : clientIo cd r = .keep cd') : ClientShape cd' := by
  rcases clientIo_eq_keep h with ⟨-, rfl⟩ | ⟨bytes, -, -, -, -, -, hst, hpad, -⟩
  · exact hs
  · exact ⟨fun hst' => hs.state_ne (hst hst'), hpad hs.pad_eq⟩

/-- A property of every connection survives an event if the connection the event
is about keeps it. -/
theorem forall_clients_set {P : Connection → Prop} {s : Server}
    (hs : ∀ fd c, s.clients fd = some c → P c) {fd : ℕ} {c' : Option Connection}
    (hc : ∀ c, c' = some c → P c) : ∀ fd' c, (s.set fd c').clients fd' = some c → P c := by
  intro fd' c hget
  by_cases hfd : fd' = fd
  · subst hfd
    rw [Server.clients_set_self] at hget
    exact hc c hget
  · rw [Server.clients_set_of_ne s c' hfd] at hget
    exact hs fd' c hget

theorem serverShape_step {s s' : Server} {e : ServerEvent} (hs : ServerShape s)
    (h : serverStep s e = some s') : ServerShape s' := by
  rcases serverStep_cases h with ⟨fd, -, -, rfl⟩ | ⟨fd, r, c, -, hc, -, hkind⟩
  · refine forall_clients_set (P := fun c => ClientShape c.cd) hs ?_
    intro c hc
    rw [← Option.some.inj hc]
    exact ⟨by simp [newClient], rfl⟩
  · rcases hkind with ⟨cd, hio, rfl⟩ | ⟨rfl, -⟩ | ⟨-, rfl⟩
    · refine forall_clients_set (P := fun c => ClientShape c.cd) hs ?_
      intro c' hc'
      rw [← Option.some.inj hc']
      exact clientShape_keep (hs fd c hc) hio
    · exact forall_clients_set (P := fun c => ClientShape c.cd) hs (by simp)
    · exact hs

/-! ## One event -/

/-- The event does not take the branch that advances `rq_size` twice: either it is
not a read in `CLIENT_READING_BODY`, or the read completes the body by the test
of that branch. -/
def BodyReadCompletes (s : Server) : ServerEvent → Prop
  | .io fd (.data bytes) => ∀ c, s.clients fd = some c → c.cd.state = .readingBody →
      bodyCompleted (c.cd.rqSize + bytes.length) c.cd.bodyLen = true
  | _ => True

/-- Appending header bytes appends to the contents. -/
theorem received_write {cd cd' : ClientData} {bytes : Bytes}
    (hrq : cd'.rq = Buffer.write cd.rq cd.rqSize bytes)
    (hsize : cd'.rqSize = cd.rqSize + bytes.length) : cd'.received = cd.received ++ bytes := by
  unfold ClientData.received
  rw [hrq, hsize, Buffer.slice_write_append]

/-- A receive the kernel can give fits while the invariant holds. -/
theorem clientIo_ne_corrupt {c : Connection} {r : RecvResult} (hok : ConnectionOk c)
    (hsh : ClientShape c.cd) (hadm : Admissible c.cd r) : clientIo c.cd r ≠ .corrupt := by
  intro h
  obtain ⟨bytes, rfl, hlt⟩ := clientIo_eq_corrupt hsh.pad_eq h
  have hfit := hok.recvLen_fits
  have hle : bytes.length ≤ CInt.toSizeT c.cd.recvLen := hadm.2
  omega

theorem requestBufferOk_keep {s s' : Server} {e : ServerEvent} (hok : RequestBufferOk s)
    (hsh : ServerShape s) (hbody : BodyReadCompletes s e) (h : serverStep s e = some s') :
    RequestBufferOk s' := by
  rcases serverStep_cases h with ⟨fd, -, -, rfl⟩ | ⟨fd, r, c, rfl, hc, hadm, hkind⟩
  · refine ⟨hok.1, forall_clients_set hok.2 ?_⟩
    intro c hc
    rw [← Option.some.inj hc]
    exact ConnectionOk.intro (Nat.zero_le _) rfl
  · rcases hkind with ⟨cd, hio, rfl⟩ | ⟨rfl, -⟩ | ⟨hio, -⟩
    · refine ⟨hok.1, forall_clients_set hok.2 ?_⟩
      intro c' hc'
      rw [← Option.some.inj hc']
      have hconn := hok.2 fd c hc
      rcases clientIo_eq_keep hio with ⟨rfl, rfl⟩ | ⟨bytes, rfl, hfit, hsize, hrq, -⟩
      · refine ConnectionOk.intro hconn.rqSize_le ?_
        simpa [RecvResult.bytes] using hconn.received_eq
      · rcases hsize with ⟨-, hsize⟩ | ⟨hst, hnot, -⟩ | ⟨hst, -⟩
        · refine ConnectionOk.intro (by rw [hsize]; exact hfit) ?_
          rw [received_write hrq hsize, hconn.received_eq]
          rfl
        · exact absurd (hbody c hc hst) (by rw [hnot]; simp)
        · exact absurd hst (hsh fd c hc).state_ne
    · exact ⟨hok.1, forall_clients_set hok.2 (by simp)⟩
    · exact absurd hio (clientIo_ne_corrupt (hok.2 fd c hc) (hsh fd c hc) hadm)

/-- The branch for an incomplete body breaks the invariant at once: the counter
runs ahead of the bytes delivered by the length of the read. -/
theorem not_requestBufferOk_of_not_bodyReadCompletes {s s' : Server} {e : ServerEvent}
    (hok : RequestBufferOk s) (hbody : ¬ BodyReadCompletes s e) (h : serverStep s e = some s') :
    ¬ RequestBufferOk s' := by
  intro hok'
  rcases serverStep_cases h with ⟨fd, rfl, -, rfl⟩ | ⟨fd, r, c, rfl, hc, hadm, hkind⟩
  · exact hbody trivial
  · cases r with
    | closed => exact hbody trivial
    | wouldBlock => exact hbody trivial
    | error => exact hbody trivial
    | data bytes =>
      simp only [BodyReadCompletes, not_forall] at hbody
      obtain ⟨c₀, hc₀, hst, hnot⟩ := hbody
      obtain rfl : c = c₀ := Option.some.inj (hc.symm.trans hc₀)
      have hconn := hok.2 fd c hc
      have hlen : bytes.length ≤ CInt.toSizeT c.cd.recvLen := hadm.2
      have hpos : 0 < bytes.length := List.length_pos_of_ne_nil hadm.1
      have hfit : ¬ maxBuffr < c.cd.rqSize + bytes.length := by
        have := hconn.recvLen_fits
        omega
      have hio : clientIo c.cd (.data bytes) =
          .keep { c.cd with
            rq := Buffer.write c.cd.rq c.cd.rqSize bytes
            rqSize := c.cd.rqSize + bytes.length + bytes.length } := by
        simp only [clientIo, if_neg hfit, hst, readBody, if_neg hnot]
      rcases hkind with ⟨cd, hkeep, rfl⟩ | ⟨-, hne⟩ | ⟨hcor, -⟩
      · obtain rfl := ClientOutcome.keep.inj (hio.symm.trans hkeep)
        have hnew := (hok'.2 fd _ (Server.clients_set_self s fd _)).received_eq
        have h1 := congrArg List.length hnew
        have h2 := congrArg List.length hconn.received_eq
        simp only [ClientData.received, Buffer.length_slice, List.length_append,
          RecvResult.bytes] at h1 h2
        omega
      · exact hne _ hio
      · rw [hio] at hcor
        exact absurd hcor (by simp)

/-! ## Whole runs -/

theorem requestBufferOk_initial : RequestBufferOk Server.initial :=
  ⟨rfl, fun fd c h => absurd h (by simp [Server.initial])⟩

theorem serverShape_initial : ServerShape Server.initial :=
  fun fd c h => absurd h (by simp [Server.initial])

/-- **The request buffers are sound exactly as long as no read of an incomplete body
takes place.**  For every run of accepts and readiness events, in any order and
with any results of `recv`: all states of the run satisfy the buffer invariant if
and only if every read in `CLIENT_READING_BODY` completes the body. -/
theorem throughout_requestBufferOk_iff {es : List ServerEvent} {s : Server}
    (h : run serverStep Server.initial es = some s) :
    Throughout serverStep RequestBufferOk Server.initial es ↔
      Along serverStep BodyReadCompletes Server.initial es := by
  have hiff : Throughout serverStep (fun s => RequestBufferOk s ∧ ServerShape s)
      Server.initial es ↔ Along serverStep BodyReadCompletes Server.initial es :=
    throughout_iff_along
      (fun s e s' hs hP hstep =>
        ⟨requestBufferOk_keep hs.1 hs.2 hP hstep, serverShape_step hs.2 hstep⟩)
      (fun s e s' hs hP hstep hs' =>
        not_requestBufferOk_of_not_bodyReadCompletes hs.1 hP hstep hs'.1)
      ⟨requestBufferOk_initial, serverShape_initial⟩ h
  rw [← hiff]
  constructor
  · intro hth ms ns t hsplit ht
    exact ⟨hth ms ns t hsplit ht,
      run_invariant (fun _ _ _ => serverShape_step) serverShape_initial ht⟩
  · intro hth ms ns t hsplit ht
    exact (hth ms ns t hsplit ht).1

/-- A client declares a body of 8000 bytes and sends 4100 of them in one piece. -/
def halfBodyRun : List ServerEvent :=
  [.accept 5, .io 5 (.data (ascii "POST / HTTP/1.0\r\nContent-Length: 8000\r\n\r\n")),
    .io 5 (.data (List.replicate 4100 65))]

/-- What the server believes and what it was given, at the end of a run. -/
def counters (fd : ℕ) (s : Server) : Option (ℕ × Int × ℕ) :=
  (s.clients fd).map fun c => (c.cd.rqSize, c.cd.recvLen, c.delivered.length)

/-- **The counter leaves the array.**  After the two reads `rq_size` is 8241 although
4141 bytes were delivered, and the next `recv` is asked for `-49` bytes. -/
theorem halfBodyRun_not_requestBufferOk :
    ∃ s, run serverStep Server.initial halfBodyRun = some s ∧
      counters 5 s = some (8241, -49, 4141) ∧ ¬ RequestBufferOk s := by
  have heval : (run serverStep Server.initial halfBodyRun).bind (counters 5) =
      some (8241, -49, 4141) := by
    decide +kernel
  obtain ⟨s, hs, hc⟩ := Option.bind_eq_some_iff.mp heval
  refine ⟨s, hs, hc, fun hok => ?_⟩
  obtain ⟨c, hget, hval⟩ := Option.map_eq_some_iff.mp hc
  have hle := (hok.2 5 c hget).rqSize_le
  have h1 : c.cd.rqSize = 8241 := congrArg Prod.fst hval
  rw [h1, maxBuffr_eq] at hle
  exact absurd hle (by decide)

/-- A client whose header block arrives in two pieces. -/
def twoPieceRun : List ServerEvent :=
  [.accept 5, .io 5 (.data (ascii "GET / HT")), .io 5 (.data (ascii "TP/1.0\r\nA: b"))]

theorem twoPieceRun_throughout :
    ∃ s, run serverStep Server.initial twoPieceRun = some s ∧ (s.clients 5).isSome ∧
      (Throughout serverStep RequestBufferOk Server.initial twoPieceRun ↔
        Along serverStep BodyReadCompletes Server.initial twoPieceRun) := by
  have heval : (run serverStep Server.initial twoPieceRun).map (fun s => (s.clients 5).isSome) =
      some true := by
    decide +kernel
  obtain ⟨s, hs, hopen⟩ := Option.map_eq_some_iff.mp heval
  exact ⟨s, hs, hopen, throughout_requestBufferOk_iff hs⟩

end Epoll
end BareHttp
