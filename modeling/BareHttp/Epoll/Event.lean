import BareHttp.Epoll.Loop

/-!
# An event on a client, statement by statement

`clientEvent` follows the source: it reads and writes the `client_data` in memory, at the address
in `cd`, and tests the variables.  Here its statements are run one after the other from a state in
which the client is at that address.  In the middle of the event the state is always of one form,
`during`, and what the statements come to is what `clientIo` says of the `client_data` alone
(`clientEvent_eq`): the request that is handed on is that of the client the event is for, and the
branch is the one its own data decide.
-/

namespace BareHttp
namespace Epoll
namespace Loop

open PointerList

/-- The state in the middle of an event on the client at `p`: it was read `n` times so far, and
is now `cd`. -/
def State.during (s : State) (p : ℕ) (c : Client) (rest : List EventData) (r : RecvResult)
    (ret : ParseAnswer) (n : ℕ) (cd : ClientData) : State :=
  { s with
    clients := s.clients.set p ⟨cd, c.conn⟩
    batch := rest
    vars := { s.vars with cd := p, clientfd := c.cd.fd, bytesRead := bytesRead r, ret }
    history := s.history ++ List.replicate n (.used c.conn)
    deeds := s.deeds ++ [.receives (s.table c.cd.fd) r] }

/-- How an event ends that comes to a given outcome.  The `client_data` of a client that is not kept
is of no account. -/
def State.finish (sc : ServerConf) (env : Env) (kept : List ℕ) (c : Client) (t : ClientData → State)
    (cd : ClientData) : ClientOutcome → Option State
  | .keep cd' => (t cd').alone kept
  | .corrupt => { t cd with status := .overflowed }.alone kept
  | .close cause => (t cd).tearDown kept cause
  | .dispatch request => (t cd).answer sc env kept request c.cd.fd (answeredActions c.cd.state)

variable {sc : ServerConf} {p : ℕ} {c : Client} {s : State} {rest : List EventData}
  {r : RecvResult} {env : Env} {kept : List ℕ} {ret : ParseAnswer} {n : ℕ} {cd : ClientData}

namespace State

/-! ## Single statements -/

@[simp] theorem during_table : (s.during p c rest r ret n cd).table = s.table := rfl

@[simp] theorem during_status : (s.during p c rest r ret n cd).status = s.status := rfl

/-- What is read is what was written last. -/
theorem load_during (hc : s.clients.data p = some c) (f : State → Client → Option State) :
    (s.during p c rest r ret n cd).load f =
      f (s.during p c rest r ret (n + 1) cd) ⟨cd, c.conn⟩ := by
  have hdata : (s.during p c rest r ret n cd).clients.data p = some ⟨cd, c.conn⟩ :=
    Memory.data_set_self hc _
  simp only [load, during] at hdata ⊢
  rw [hdata]
  simp [List.replicate_succ']

theorem store_during (cd' : ClientData) :
    (s.during p c rest r ret n cd).store ⟨cd', c.conn⟩ = s.during p c rest r ret n cd' := by
  simp [store, during]

theorem setRet_during (ret' : ParseAnswer) :
    (s.during p c rest r ret n cd).setRet ret' = s.during p c rest r ret' n cd := rfl

theorem bytesRead_during : (s.during p c rest r ret n cd).vars.bytesRead = bytesRead r := rfl

theorem ret_during : (s.during p c rest r ret n cd).vars.ret = ret := rfl

/-! ## The branches -/

/-- **The branch `CLIENT_READING_HEADERS`.** -/
theorem readHeaders_during (hc : s.clients.data p = some c) (hfd : cd.fd = c.cd.fd)
    (hstate : c.cd.state = .readingHeaders) (bytes : Bytes) :
    ∃ ret' n' cd', (s.during p c rest (.data bytes) ret n cd).readHeaders sc env kept =
      finish sc env kept c (s.during p c rest (.data bytes) ret' n') cd'
        (Epoll.readHeaders cd bytes.length) := by
  simp only [readHeaders, load_during hc, store_during, setRet_during, bytesRead_during,
    ret_during, bytesRead, Int.toNat_natCast, Epoll.readHeaders]
  generalize httpParseRequest _ _ _ = parse
  obtain ⟨answer, rq⟩ := parse
  cases answer with
  | invalid => exact ⟨_, _, _, rfl⟩
  | overrun => exact ⟨_, _, _, rfl⟩
  | incomplete =>
    simp only
    split_ifs
    · exact ⟨_, _, _, rfl⟩
    · exact ⟨_, _, cd, rfl⟩
  | parsed consumed =>
    simp only
    split_ifs
    · exact ⟨_, _, _, rfl⟩
    · rw [hfd, ← hstate]
      exact ⟨_, _, _, rfl⟩
    · exact ⟨_, _, cd, rfl⟩

/-- **The branch `CLIENT_READING_BODY`.** -/
theorem readBody_during (hc : s.clients.data p = some c) (hfd : cd.fd = c.cd.fd)
    (hstate : c.cd.state = .readingBody) (bytes : Bytes) :
    ∃ ret' n' cd', (s.during p c rest (.data bytes) ret n cd).readBody sc env kept =
      finish sc env kept c (s.during p c rest (.data bytes) ret' n') cd'
        (Epoll.readBody cd bytes.length) := by
  simp only [readBody, load_during hc, store_during, bytesRead_during, bytesRead,
    Int.toNat_natCast, Epoll.readBody]
  split_ifs
  · rw [hfd, ← hstate]
    exact ⟨_, _, _, rfl⟩
  · exact ⟨_, _, cd, rfl⟩

/-- What `recv` leaves in the `client_data`. -/
def received (cd : ClientData) : RecvResult → ClientData
  | .data bytes => { cd with rq := Buffer.write cd.rq cd.rqSize bytes }
  | _ => cd

/-- **The branches behind `recv`**, where what it read is inside `rq`. -/
theorem branch_during (hc : s.clients.data p = some c) (hadm : Admissible c.cd r)
    (hfit : ∀ bytes, r = .data bytes → ¬ maxBuffr < c.cd.rqSize + bytes.length) :
    ∃ ret' n' cd', (s.during p c rest r ret n (received c.cd r)).branch sc env kept r =
      finish sc env kept c (s.during p c rest r ret' n') cd' (clientIo c.cd r) := by
  cases r with
  | closed => exact ⟨_, _, c.cd, rfl⟩
  | wouldBlock => exact ⟨_, _, c.cd, rfl⟩
  | error => exact ⟨_, _, c.cd, rfl⟩
  | data bytes =>
    have hpos : 0 < bytes.length := List.length_pos_iff.mpr hadm.1
    have hne : bytesRead (.data bytes) ≠ 0 := by
      simp only [bytesRead]
      omega
    have hnonneg : ¬ bytesRead (.data bytes) < 0 := by
      simp only [bytesRead]
      omega
    simp only [branch, bytesRead_during, if_neg hne, if_neg hnonneg, load_during hc, clientIo,
      if_neg (hfit bytes rfl), received]
    cases hst : c.cd.state with
    | readingHeaders => exact readHeaders_during hc (by rfl) hst bytes
    | readingBody => exact readBody_during hc (by rfl) hst bytes
    | sendingResponse => exact ⟨_, _, c.cd, rfl⟩

/-- **An event on a client comes to what its `client_data` says.** -/
theorem clientEvent_eq (hs : s.status = .running) (hc : s.clients.data p = some c)
    (hadm : Admissible c.cd r) :
    ∃ ret n cd, s.clientEvent sc p rest r env kept =
      finish sc env kept c (s.during p c rest r ret n) cd (clientIo c.cd r) := by
  have hself : s.clients.set p ⟨c.cd, c.conn⟩ = s.clients := Memory.set_eq_self hc
  -- the state in which `recv` is called
  let s₁ : State :=
    { s with
      batch := rest
      vars := { s.vars with cd := p, clientfd := c.cd.fd }
      history := s.history ++ [.used c.conn] ++ [.used c.conn] }
  have hevent : s.clientEvent sc p rest r env kept =
      if (s₁.recv c r).status = .overflowed then (s₁.recv c r).alone kept
      else (s₁.recv c r).branch sc env kept r := by
    simp only [clientEvent, load, hc, if_pos hadm]
    rfl
  by_cases hover : ∃ bytes, r = .data bytes ∧ maxBuffr < c.cd.rqSize + bytes.length
  · obtain ⟨bytes, rfl, hlt⟩ := hover
    have hrecv : s₁.recv c (.data bytes) =
        { s.during p c rest (.data bytes) s.vars.ret 2 c.cd with status := .overflowed } := by
      simp only [recv, if_pos hlt, during, hself, s₁, List.append_assoc]
      rfl
    refine ⟨s.vars.ret, 2, c.cd, ?_⟩
    rw [hevent, hrecv, if_pos rfl, clientIo, if_pos hlt]
    rfl
  · have hfit : ∀ bytes, r = .data bytes → ¬ maxBuffr < c.cd.rqSize + bytes.length :=
      fun bytes hr hlt => hover ⟨bytes, hr, hlt⟩
    have hrecv : s₁.recv c r = s.during p c rest r s.vars.ret 2 (received c.cd r) := by
      cases r with
      | data bytes =>
        simp only [recv, if_neg (hfit bytes rfl), during, received, store, s₁, List.append_assoc]
        rfl
      | closed | wouldBlock | error =>
        simp only [recv, during, received, hself, s₁, List.append_assoc]
        rfl
    have hstatus : (s.during p c rest r s.vars.ret 2 (received c.cd r)).status ≠ .overflowed := by
      simp [during, hs]
    rw [hevent, hrecv, if_neg hstatus]
    exact branch_during hc hadm hfit

/-- `recv` returns what it can. -/
theorem admissible_of_clientEvent {s' : State} (hc : s.clients.data p = some c)
    (h : s.clientEvent sc p rest r env kept = some s') : Admissible c.cd r := by
  by_contra hadm
  simp [clientEvent, load, hc, hadm] at h

/-- The client has been freed. -/
theorem clientEvent_none (hc : s.clients.data p = none) :
    s.clientEvent sc p rest r env kept =
      some { s with batch := rest, vars := { s.vars with cd := p }, status := .dangling } := by
  simp only [clientEvent, load, hc]

end State

end Loop
end Epoll
end BareHttp
