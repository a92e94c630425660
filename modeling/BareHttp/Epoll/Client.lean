import BareHttp.Foundation.Transition
import BareHttp.Http.Request

/-!
# One client of the epoll server

The client branch of `epoll_server` in `src/server.c`: what one readiness event on
a client's descriptor does to its `client_data`, given what `recv` returned.  The
branch ends in one of four ways: the client is kept, it is closed without an
answer, its request goes to `http_process_request` and it is closed, or `recv`
wrote outside `rq`.

`int` arithmetic is reduced to thirty-two bits in the two tests that read the
declared body length, which is any `int`.  The counter `rq_size` starts at zero
and only grows by amounts `recv` returned, so it is a natural number here.
-/

namespace BareHttp
namespace Epoll

/-- `client_state`. -/
inductive ClientState where
  | readingHeaders
  | readingBody
  | sendingResponse
  deriving DecidableEq

/-- `struct _client_data`, without the list pointer. -/
structure ClientData where
  fd : ℕ
  state : ClientState
  rq : ℕ → UInt8
  rqSize : ℕ
  httpRq : HttpRequest
  lastLen : ℕ
  bodyLen : Int
  headerLen : Int

/-- A new client: memory from `calloc`, then `fd` and `state`. -/
def newClient (fd : ℕ) : ClientData :=
  { fd, state := .readingHeaders, rq := fun _ => 0, rqSize := 0, httpRq := .zeroed, lastLen := 0,
    bodyLen := 0, headerLen := 0 }

/-- What `tcp_recv` returns: bytes, `0`, or `-1` with `errno` saying "try again" or
something else. -/
inductive RecvResult where
  | data (bytes : Bytes)
  | closed
  | wouldBlock
  | error
  deriving DecidableEq

/-- Why a client is closed without an answer. -/
inductive CloseCause where
  | byPeer
  | internalError
  | invalidRequest
  | tooLongRequest
  | tooLongBody
  deriving DecidableEq

/-- What one event leaves. -/
inductive ClientOutcome where
  | keep (cd : ClientData)
  | close (cause : CloseCause)
  | dispatch (request : HttpRequest)
  | corrupt

/-- The length given to the next `tcp_recv`: `MAX_BUFFR - cd->rq_size`, an `int`. -/
def ClientData.recvLen (cd : ClientData) : Int := maxBuffr - cd.rqSize

/-- The bytes received so far, `cd->rq[0 .. rq_size)`. -/
def ClientData.received (cd : ClientData) : Bytes := Buffer.slice cd.rq 0 cd.rqSize

/-- `cd->body_len + cd->rq_size >= MAX_BUFFR`. -/
def tooLong (bodyLen : Int) (rqSize : ℕ) : Bool := maxBuffr ≤ CInt.toInt32 (bodyLen + rqSize)

/-- `cd->rq_size - cd->body_len >= cd->body_len`. -/
def bodyCompleted (rqSize : ℕ) (bodyLen : Int) : Bool := bodyLen ≤ CInt.toInt32 (rqSize - bodyLen)

/-- The branch `CLIENT_READING_HEADERS`, after `bytes_read` bytes were stored. -/
def readHeaders (cd : ClientData) (bytesRead : ℕ) : ClientOutcome :=
  let cd : ClientData := { cd with lastLen := cd.rqSize, rqSize := cd.rqSize + bytesRead }
  match httpParseRequest cd.received cd.httpRq cd.lastLen with
  | (.invalid, _) => .close .invalidRequest
  | (.incomplete, rq) =>
    if maxBuffr ≤ cd.rqSize then .close .tooLongRequest else .keep { cd with httpRq := rq }
  | (.overrun, _) => .corrupt
  | (.parsed _, rq) =>
    let cd : ClientData := { cd with httpRq := rq, bodyLen := httpGetContentLength rq }
    if tooLong cd.bodyLen cd.rqSize then .close .tooLongBody
    else if cd.bodyLen = 0 then .dispatch cd.httpRq
    else .keep { cd with state := .readingBody }

/-- The branch `CLIENT_READING_BODY`.  `rq_size` is advanced before the test and
once more when the body is not complete; the body handed on starts at
`rq + rq_size`, and `header_len` is never assigned. -/
def readBody (cd : ClientData) (bytesRead : ℕ) : ClientOutcome :=
  let cd := { cd with rqSize := cd.rqSize + bytesRead }
  if bodyCompleted cd.rqSize cd.bodyLen then
    .dispatch (httpAddBody cd.httpRq cd.rq cd.rqSize (cd.rqSize - cd.headerLen))
  else .keep { cd with rqSize := cd.rqSize + bytesRead }

/-- The client branch.  `recv` stores what it read at `rq + rq_size`. -/
def clientIo (cd : ClientData) : RecvResult → ClientOutcome
  | .closed => .close .byPeer
  | .wouldBlock => .keep cd
  | .error => .close .internalError
  | .data bytes =>
    if maxBuffr < cd.rqSize + bytes.length then .corrupt
    else
      let cd := { cd with rq := Buffer.write cd.rq cd.rqSize bytes }
      match cd.state with
      | .readingHeaders => readHeaders cd bytes.length
      | .readingBody => readBody cd bytes.length
      | .sendingResponse => .keep cd

/-- The results `recv` can give on this client: some bytes, not more than the
length asked for as a `size_t`, or no bytes. -/
def Admissible (cd : ClientData) : RecvResult → Prop
  | .data bytes => bytes ≠ [] ∧ bytes.length ≤ CInt.toSizeT cd.recvLen
  | _ => True

instance (cd : ClientData) (r : RecvResult) : Decidable (Admissible cd r) := by
  cases r <;> unfold Admissible <;> infer_instance

/-- The room that is left, as the kernel sees it. -/
theorem toSizeT_recvLen {cd : ClientData} (h : cd.rqSize ≤ maxBuffr) :
    CInt.toSizeT cd.recvLen = maxBuffr - cd.rqSize := by
  have hlen : cd.recvLen = ((maxBuffr - cd.rqSize : ℕ) : Int) := by
    unfold ClientData.recvLen
    omega
  have h1 := CInt.toSizeT_of_nonneg (z := cd.recvLen) (by omega)
    (by rw [hlen, maxBuffr_eq]; omega)
  omega

/-- **Every way one event keeps a client.**  Nothing was read; or header bytes were
appended and the block is still incomplete; or they complete the block and a body
is expected; or body bytes were stored and the counter advanced twice. -/
theorem clientIo_eq_keep {cd cd' : ClientData} {r : RecvResult} (h : clientIo cd r = .keep cd') :
    (r = .wouldBlock ∧ cd' = cd) ∨
    (∃ bytes, r = .data bytes ∧ cd.rqSize + bytes.length ≤ maxBuffr ∧
      ((cd.state = .readingHeaders ∧ cd'.rqSize = cd.rqSize + bytes.length) ∨
       (cd.state = .readingBody ∧
          bodyCompleted (cd.rqSize + bytes.length) cd.bodyLen = false ∧
          cd'.rqSize = cd.rqSize + bytes.length + bytes.length) ∨
       (cd.state = .sendingResponse ∧ cd'.rqSize = cd.rqSize)) ∧
      cd'.rq = Buffer.write cd.rq cd.rqSize bytes ∧ cd'.headerLen = cd.headerLen ∧
      (cd'.state = .sendingResponse → cd.state = .sendingResponse) ∧
      (cd.httpRq.headersPad = 0 → cd'.httpRq.headersPad = 0) ∧
      cd'.httpRq.body = cd.httpRq.body) := by
  cases r with
  | closed => exact absurd h (by simp [clientIo])
  | error => exact absurd h (by simp [clientIo])
  | wouldBlock => exact Or.inl ⟨rfl, (ClientOutcome.keep.inj h).symm⟩
  | data bytes =>
    right
    simp only [clientIo] at h
    split_ifs at h with hfit
    refine ⟨bytes, rfl, by omega, ?_⟩
    cases hst : cd.state with
    | readingHeaders =>
      simp only [hst, readHeaders] at h
      -- the struct kept is the one the parse returned, and a parse clears the padding
      split at h
      · exact absurd h (by simp)
      · rename_i rq heq
        split_ifs at h
        rw [← ClientOutcome.keep.inj h]
        obtain ⟨hpad, hbody⟩ := httpParseRequest_frame heq
        exact ⟨Or.inl ⟨rfl, rfl⟩, rfl, rfl, by simp, fun _ => hpad, hbody⟩
      · exact absurd h (by simp)
      · rename_i rq heq
        split_ifs at h
        rw [← ClientOutcome.keep.inj h]
        obtain ⟨hpad, hbody⟩ := httpParseRequest_frame heq
        exact ⟨Or.inl ⟨rfl, rfl⟩, rfl, rfl, by simp, fun _ => hpad, hbody⟩
    | readingBody =>
      simp only [hst, readBody] at h
      split_ifs at h with hdone
      rw [← ClientOutcome.keep.inj h]
      exact ⟨Or.inr (Or.inl ⟨rfl, by simpa using hdone, rfl⟩), rfl, rfl, by simp, id, rfl⟩
    | sendingResponse =>
      simp only [hst] at h
      rw [← ClientOutcome.keep.inj h]
      exact ⟨Or.inr (Or.inr ⟨rfl, rfl⟩), rfl, rfl, by simp, id, rfl⟩

/-- **Every way one event dispatches a request.**  The header block is complete and
declares no body, and the request keeps the body it had; or the body is complete
by the test of the code, and the request gets a body of `rq_size - header_len`
bytes. -/
theorem clientIo_eq_dispatch {cd : ClientData} {r : RecvResult} {rq : HttpRequest}
    (h : clientIo cd r = .dispatch rq) :
    ∃ bytes, r = .data bytes ∧ cd.rqSize + bytes.length ≤ maxBuffr ∧
      ((cd.state = .readingHeaders ∧ rq.body = cd.httpRq.body) ∨
       (cd.state = .readingBody ∧
          rq = httpAddBody cd.httpRq (Buffer.write cd.rq cd.rqSize bytes)
            (cd.rqSize + bytes.length) ((cd.rqSize + bytes.length : ℕ) - cd.headerLen))) := by
  cases r with
  | closed => exact absurd h (by simp [clientIo])
  | error => exact absurd h (by simp [clientIo])
  | wouldBlock => exact absurd h (by simp [clientIo])
  | data bytes =>
    simp only [clientIo] at h
    split_ifs at h with hfit
    refine ⟨bytes, rfl, by omega, ?_⟩
    cases hst : cd.state with
    | readingHeaders =>
      simp only [hst, readHeaders] at h
      split at h
      · exact absurd h (by simp)
      · split_ifs at h
      · exact absurd h (by simp)
      · rename_i rq' heq
        split_ifs at h
        rw [← ClientOutcome.dispatch.inj h]
        exact Or.inl ⟨rfl, (httpParseRequest_frame heq).2⟩
    | readingBody =>
      simp only [hst, readBody] at h
      split_ifs at h
      exact Or.inr ⟨rfl, (ClientOutcome.dispatch.inj h).symm⟩
    | sendingResponse => simp [hst] at h

/-- With the padding clear, the only memory error is a receive that does not fit. -/
theorem clientIo_eq_corrupt {cd : ClientData} {r : RecvResult} (hpad : cd.httpRq.headersPad = 0)
    (h : clientIo cd r = .corrupt) :
    ∃ bytes, r = .data bytes ∧ maxBuffr < cd.rqSize + bytes.length := by
  cases r with
  | closed => exact absurd h (by simp [clientIo])
  | error => exact absurd h (by simp [clientIo])
  | wouldBlock => exact absurd h (by simp [clientIo])
  | data bytes =>
    by_cases hfit : maxBuffr < cd.rqSize + bytes.length
    · exact ⟨bytes, rfl, hfit⟩
    · simp only [clientIo, if_neg hfit] at h
      cases hst : cd.state with
      | readingHeaders =>
        simp only [hst, readHeaders] at h
        split at h
        · exact absurd h (by simp)
        · split_ifs at h
        · rename_i rq heq
          exact absurd (congrArg Prod.fst heq) (httpParseRequest_ne_overrun hpad)
        · split_ifs at h
      | readingBody =>
        simp only [hst, readBody] at h
        split_ifs at h
      | sendingResponse => simp [hst] at h

/-- The same outcome for a client with another descriptor. -/
def ClientOutcome.withFd (fd : ℕ) : ClientOutcome → ClientOutcome
  | .keep cd => .keep { cd with fd }
  | o => o

/-- **The descriptor decides nothing.** -/
theorem clientIo_withFd (cd : ClientData) (r : RecvResult) (fd : ℕ) :
    clientIo { cd with fd } r = (clientIo cd r).withFd fd := by
  cases r with
  | closed => rfl
  | error => rfl
  | wouldBlock => rfl
  | data bytes =>
    simp only [clientIo]
    split_ifs with hfit
    · rfl
    · cases hst : cd.state with
      | readingHeaders =>
        simp only [readHeaders, ClientData.received]
        split
        · rfl
        · split_ifs <;> rfl
        · rfl
        · split_ifs <;> rfl
      | readingBody =>
        simp only [readBody]
        split_ifs <;> rfl
      | sendingResponse => rfl

/-- A client that is kept keeps its descriptor. -/
theorem fd_of_keep {cd cd' : ClientData} {r : RecvResult} (h : clientIo cd r = .keep cd') :
    cd'.fd = cd.fd := by
  have hsame := clientIo_withFd cd r cd.fd
  rw [h] at hsame
  have hkept : cd' = { cd' with fd := cd.fd } := ClientOutcome.keep.inj hsame
  rw [hkept]

end Epoll
end BareHttp
