import BareHttp.Epoll.Arrivals
import BareHttp.Parser.HeaderLimit
import BareHttp.Worker.ExactBody

/-!
# The two servers on one connection

`epoll_server` and `thread_function` read the same protocol.  Here the same pieces
arrive at a new client of the one and at a worker of the other that starts with an
empty buffer; then the peer closes.  They agree when both hand on the same request,
or when neither does and the epoll server sends the error status the worker sends.

Up to the end of the header block the two run in lockstep (`lockstep`), except that
the worker may have been told a wrong header limit by the padding of a struct on its
stack.  Behind it they part: the worker answers what it rejects and reads up to the
declared length, the epoll server does neither.  `agrees_iff` gives the exact
condition.
-/

namespace BareHttp
namespace Agreement

open Pico

/-- The status a worker sends for what it does not dispatch. -/
def status : Worker.Received → Option HttpStatus
  | .rejected => some .badRequest
  | .failed => some .internalError
  | _ => none

/-- The same method, URL, headers and body. -/
structure SameRequest (rq rq' : HttpRequest) : Prop where
  method_eq : rq'.method = rq.method
  url_eq : rq'.url = rq.url
  headers_eq : rq'.headers = rq.headers
  body_eq : rq'.body.bytes = rq.body.bytes

/-- The two servers agree: `t` is what the worker received, `e` what became of the epoll
client, and `sent` the bytes that client was sent. -/
def Agrees (t : Worker.Received) (e : Epoll.ClientOutcome) (sent : Bytes) : Prop :=
  match t, e with
  | .complete rq, .dispatch rq' => SameRequest rq rq'
  | .complete _, _ => False
  | .overrun, _ => False
  | t, .close _ => ∀ s, status t = some s → statusLine s <+: sent
  | _, _ => False

/-! ## The header block -/

/-- The parser has refused what is in the buffer, and goes on refusing. -/
theorem readHeader_ne_block {st : Worker.State} (hpad : st.request.headersPad = 0) {e : PhrError}
    (hfail : parseRequest maxHeaders maxHeaders st.buff = .fail e) (pieces : List Bytes)
    (size : ℕ) (st' : Worker.State) (rest : List Bytes) :
    Worker.readHeader .closed st pieces ≠ .block size st' rest := by
  induction pieces generalizing st with
  | nil => simp [Worker.readHeader]
  | cons p ps ih =>
    have hfail' : parseRequest maxHeaders maxHeaders
        (st.buff ++ p.take (maxBuffr - st.buff.length)) = .fail e :=
      (stable_parseRequest maxHeaders maxHeaders).fail hfail _
    have hne : ∀ r rest', phrParseRequest maxHeaders maxHeaders st.buff.length
        (st.buff ++ p.take (maxBuffr - st.buff.length)) ≠ .done r rest' := by
      intro r rest' h
      unfold phrParseRequest at h
      split_ifs at h
      · obtain ⟨-, -, -, h⟩ := Scan.bind_eq_done h
        rw [hfail'] at h
        exact absurd h (by simp)
      · rw [hfail'] at h
        exact absurd h (by simp)
    simp only [Worker.readHeader, httpParseRequest, HttpRequest.headerLimit_eq hpad]
    by_cases hnil : p.take (maxBuffr - st.buff.length) = []
    · simp [hnil]
    · rw [if_neg hnil]
      cases hphr : phrParseRequest maxHeaders maxHeaders st.buff.length
          (st.buff ++ p.take (maxBuffr - st.buff.length)) with
      | done r rest' => exact absurd hphr (hne r rest')
      | fail e' => cases e' <;> simp
      | incomplete =>
        simp only
        split_ifs
        · simp
        · exact ih rfl hfail'

/-- The outcome `o` of the epoll client, when the worker has a header block of `size`
bytes in `st` and `rest` is not read yet. -/
structure Onward (o : Epoll.ClientOutcome) (size : ℕ) (st : Worker.State) (rest : List Bytes)
    (rq : HttpRequest) : Prop where
  request_eq : ∃ b, st.request = { rq with body := b }
  body_eq : rq.body = ⟨0, some []⟩
  size_le : size ≤ st.buff.length
  length_le : st.buff.length ≤ maxBuffr
  rest_ne : ∀ p ∈ rest, p ≠ []
  tooLong : Epoll.tooLong (httpGetContentLength rq) st.buff.length = true →
    o = .close .tooLongBody
  noBody : Epoll.tooLong (httpGetContentLength rq) st.buff.length = false →
    httpGetContentLength rq = 0 → o = .dispatch rq
  body : Epoll.tooLong (httpGetContentLength rq) st.buff.length = false →
    httpGetContentLength rq ≠ 0 → ∃ fuel' cd', rest.flatten.length < fuel' ∧
      Epoll.ReadingBody st.buff.length (httpGetContentLength rq) rq cd' ∧
      o = Epoll.readPieces fuel' cd' rest

/-- The room the epoll client has is that of the worker. -/
theorem toSizeT_recvLen_eq {cd : Epoll.ClientData} {buff : Bytes}
    (hl : Epoll.ReadingHeaders buff cd) (hshort : buff.length < maxBuffr) :
    CInt.toSizeT cd.recvLen = maxBuffr - buff.length := by
  rw [Epoll.toSizeT_recvLen (by rw [hl.rqSize_eq]; omega), hl.rqSize_eq]

/-- **A piece completes the header block**, for the worker and for the epoll client. -/
theorem onward_of_done {p : Bytes} {ps : List Bytes} (hp : p ≠ []) (hne : ∀ q ∈ ps, q ≠ [])
    {fuel : ℕ} {cd : Epoll.ClientData} {st : Worker.State} (hl : Epoll.ReadingHeaders st.buff cd)
    (hshort : st.buff.length < maxBuffr) (hfuel : p.length + ps.flatten.length < fuel + 1)
    {r : Parsed} {rest : Bytes}
    (hparse : phrParseRequest maxHeaders maxHeaders st.buff.length
      (st.buff ++ p.take (maxBuffr - st.buff.length)) = .done r rest) :
    Onward (Epoll.readPieces (fuel + 1) cd (p :: ps))
      ((st.buff ++ p.take (maxBuffr - st.buff.length)).length - rest.length)
      ⟨st.buff ++ p.take (maxBuffr - st.buff.length), st.buff.length, st.request.filled r⟩
      (Buffer.leftover (maxBuffr - st.buff.length) p ps) (HttpRequest.zeroed.filled r) := by
  have hroom := toSizeT_recvLen_eq hl hshort
  have hbytes : p.take (maxBuffr - st.buff.length) ≠ [] := by
    rw [Ne, List.take_eq_nil_iff, not_or]
    exact ⟨by omega, hp⟩
  have hlen : (st.buff ++ p.take (maxBuffr - st.buff.length)).length =
      st.buff.length + (p.take (maxBuffr - st.buff.length)).length := List.length_append
  have hfit : st.buff.length + (p.take (maxBuffr - st.buff.length)).length ≤ maxBuffr := by
    rw [List.length_take]
    omega
  have hio := Epoll.clientIo_readingHeaders hl hfit
  rw [hparse] at hio
  simp only [Epoll.filled_eq_zeroed_filled hl r, ← hlen] at hio
  refine ⟨⟨_, rfl⟩, rfl, Nat.sub_le _ _, hlen ▸ hfit,
    fun q => Buffer.ne_nil_of_mem_leftover hne, ?_, ?_, ?_⟩
  · intro hlong
    rw [if_pos hlong] at hio
    exact Epoll.readPieces_of_stop ps hroom hbytes hio (by simp)
  · intro hlong hzero
    rw [hlong, if_neg (by simp), if_pos hzero] at hio
    exact Epoll.readPieces_of_stop ps hroom hbytes hio (by simp)
  · intro hlong hzero
    rw [hlong, if_neg (by simp), if_neg hzero] at hio
    refine ⟨fuel, _, ?_, ?_, Epoll.readPieces_of_keep ps hroom hbytes hio⟩
    · have hleft := congrArg List.length (Buffer.flatten_leftover (maxBuffr - st.buff.length) p ps)
      have hpos := List.length_pos_iff.2 hbytes
      simp only [List.length_append] at hleft
      omega
    · exact
        { state_eq := rfl
          rqSize_eq := by
            rw [hlen, ← hl.rqSize_eq]
            rfl
          bodyLen_eq := rfl
          httpRq_eq := rfl
          headerLen_eq := hl.headerLen_eq
          zero_above := (Epoll.readingHeaders_advance hl).zero_above }

/-- **Up to the end of the header block the two run in lockstep.** -/
theorem lockstep {pieces : List Bytes} (hne : ∀ p ∈ pieces, p ≠ []) {fuel : ℕ}
    {cd : Epoll.ClientData} {st : Worker.State} (hl : Epoll.ReadingHeaders st.buff cd)
    (hshort : st.buff.length < maxBuffr) (hfuel : pieces.flatten.length < fuel) :
    (∀ st', Worker.readHeader .closed st pieces = .stop .closed st' →
      ∃ cause, Epoll.readPieces fuel cd pieces = .close cause) ∧
    (∀ size st' rest, Worker.readHeader .closed st pieces = .block size st' rest →
      ∃ rq, Onward (Epoll.readPieces fuel cd pieces) size st' rest rq) := by
  induction pieces generalizing fuel cd st with
  | nil =>
    obtain ⟨fuel, rfl⟩ : ∃ f, fuel = f + 1 := ⟨fuel - 1, by omega⟩
    exact ⟨fun _ _ => ⟨.byPeer, rfl⟩, fun _ _ _ h => absurd h (by simp [Worker.readHeader])⟩
  | cons p ps ih =>
    obtain ⟨fuel, rfl⟩ : ∃ f, fuel = f + 1 := ⟨fuel - 1, by omega⟩
    have hp : p ≠ [] := hne p (by simp)
    have hps : ∀ q ∈ ps, q ≠ [] := fun q hq => hne q (by simp [hq])
    have hpos := List.length_pos_iff.2 hp
    rw [List.flatten_cons, List.length_append] at hfuel
    have hroom := toSizeT_recvLen_eq hl hshort
    have hbytes : p.take (maxBuffr - st.buff.length) ≠ [] := by
      rw [Ne, List.take_eq_nil_iff, not_or]
      exact ⟨by omega, hp⟩
    have hfit : st.buff.length + (p.take (maxBuffr - st.buff.length)).length ≤ maxBuffr := by
      rw [List.length_take]
      omega
    have hio := Epoll.clientIo_readingHeaders hl hfit
    have hlimit := phrParseRequest_limit st.request.le_headerLimit st.buff.length
      (st.buff ++ p.take (maxBuffr - st.buff.length))
    have hlen : (st.buff ++ p.take (maxBuffr - st.buff.length)).length =
        st.buff.length + (p.take (maxBuffr - st.buff.length)).length := List.length_append
    simp only [Worker.readHeader, if_neg hbytes, httpParseRequest]
    cases hwide : phrParseRequest maxHeaders st.request.headerLimit st.buff.length
      (st.buff ++ p.take (maxBuffr - st.buff.length)) with
    | fail e => cases e <;> exact ⟨fun _ h => absurd h (by simp), fun _ _ _ h => absurd h (by simp)⟩
    | done r rest' =>
      refine ⟨fun _ h => absurd h (by simp), fun size st' rest h => ?_⟩
      obtain ⟨rfl, rfl, rfl⟩ := Worker.HeaderRead.block.inj h
      have heq := hlimit.resolve_right fun hnot => hnot.2 r rest' hwide
      exact ⟨_, onward_of_done hp hps hl hshort hfuel (heq.symm.trans hwide)⟩
    | incomplete =>
      simp only
      by_cases hfull : (st.buff ++ p.take (maxBuffr - st.buff.length)).length = maxBuffr
      · rw [if_pos hfull]
        exact ⟨fun _ h => absurd h (by simp), fun _ _ _ h => absurd h (by simp)⟩
      · rw [if_neg hfull]
        have hlt : (st.buff ++ p.take (maxBuffr - st.buff.length)).length < maxBuffr := by omega
        have hleft : Buffer.leftover (maxBuffr - st.buff.length) p ps = ps := by
          unfold Buffer.leftover
          rw [List.length_append, List.length_take] at hlt
          rw [if_pos (by omega)]
        rcases hlimit with heq | ⟨hinvalid, -⟩
        · rw [← heq, hwide] at hio
          simp only [if_neg (by omega : ¬ maxBuffr ≤ st.buff.length +
            (p.take (maxBuffr - st.buff.length)).length)] at hio
          rw [Epoll.readPieces_of_keep ps hroom hbytes hio, hleft]
          exact @ih hps fuel _
            ⟨st.buff ++ p.take (maxBuffr - st.buff.length), st.buff.length, st.request.cleared⟩
            (Epoll.readingHeaders_advance hl) hlt (by omega)
        · -- the right limit refuses the block: the client is closed, and the worker, which
          -- has the right limit from now on, will not find a block any more
          rw [hinvalid] at hio
          refine ⟨fun _ _ => ⟨.invalidRequest,
            Epoll.readPieces_of_stop ps hroom hbytes hio (by simp)⟩, fun size st' rest h => ?_⟩
          exact absurd h (readHeader_ne_block rfl (parseRequest_of_limit hwide hinvalid) _ _ _ _)

/-! ## Behind the header block -/

/-- The two agree behind a header block of `size` bytes, with `st.buff` read and `rest`
to come.  Without a body: nothing was read behind the block, and the buffer is not
full.  With a body that fits: it does not arrive whole, and the epoll client is
rejected for its length or its counter stays below twice that length; or it arrives
whole, the worker, which reads to the first end of a piece behind it or to the end of
the buffer, stops as many bytes behind the block as the counter of the epoll client
shows, and all these bytes are zero. -/
def BodyAgreeable (size : ℕ) (st : Worker.State) (rest : List Bytes) : Prop :=
  let cl := httpGetContentLength st.request
  (cl = 0 ∧ st.buff.length = size ∧ st.buff.length < maxBuffr) ∨
    0 < cl ∧ size + cl ≤ maxBuffr ∧
      ((st.buff.length + rest.flatten.length < size + cl ∧
          (maxBuffr ≤ st.buff.length + cl ∨
            Epoll.bodyFate cl.toNat st.buff.length (rest.map List.length) = .closed)) ∨
        (size + cl ≤ st.buff.length + rest.flatten.length ∧ st.buff.length + cl < maxBuffr ∧
          ∃ level, Epoll.bodyFate cl.toNat st.buff.length (rest.map List.length) =
              .dispatched level ∧ level + level ≤ maxBuffr ∧
            Buffer.StopsAt maxBuffr (size + cl.toNat) st.buff.length rest (size + level) ∧
              ((st.buff ++ rest.flatten).drop size).take level = List.replicate level 0))

/-- What a worker makes of a header block. -/
def receiveBody (size : ℕ) (st : Worker.State) (rest : List Bytes) : Worker.Received :=
  if (maxBuffr : Int) - size < httpGetContentLength st.request then .rejected
  else
    match Worker.readBody .closed size (httpGetContentLength st.request) st rest with
    | (some received, _) => received
    | (none, st) =>
      .complete { st.request with
        body := ⟨(st.buff.drop size).length, some (st.buff.drop size)⟩ }

theorem not_agrees_rejected (e : Epoll.ClientOutcome) : ¬ Agrees .rejected e [] := by
  cases e with
  | close cause =>
    intro h
    exact ne_nil_of_statusLine (h .badRequest rfl) rfl
  | keep cd => exact id
  | dispatch rq => exact id
  | corrupt => exact id

theorem agrees_closed_iff (e : Epoll.ClientOutcome) :
    Agrees .closed e [] ↔ ∃ cause, e = .close cause := by
  cases e <;> simp [Agrees, status]

theorem agrees_complete_iff (rq : HttpRequest) (e : Epoll.ClientOutcome) :
    Agrees (.complete rq) e [] ↔ ∃ rq', e = .dispatch rq' ∧ SameRequest rq rq' := by
  cases e <;> simp [Agrees]

/-- The test for a declared length that is not negative and fits. -/
theorem tooLong_eq {cl n : ℕ} (hcl : cl ≤ maxBuffr) (hn : n ≤ maxBuffr) :
    Epoll.tooLong cl n = decide (maxBuffr ≤ n + cl) := by
  have hint : CInt.toInt32 ((cl : Int) + n) = cl + n := by
    rw [maxBuffr_eq] at hcl hn
    exact CInt.toInt32_of_mem (by omega) (by omega)
  unfold Epoll.tooLong
  rw [hint]
  exact decide_eq_decide.2 (by omega)

section Body

variable {o : Epoll.ClientOutcome} {size : ℕ} {st : Worker.State} {rest : List Bytes}
  {rq : HttpRequest} (hon : Onward o size st rest rq)
include hon

/-- The request the worker dispatches and the one parsed by the epoll client differ in the
body at most. -/
theorem Onward.sameRequest_iff (st' : Worker.State) (hst' : st'.request = st.request)
    (rq' : HttpRequest) (hmethod : rq'.method = rq.method) (hurl : rq'.url = rq.url)
    (hheaders : rq'.headers = rq.headers) (b : Body) :
    SameRequest { st'.request with body := b } rq' ↔ rq'.body.bytes = b.bytes := by
  obtain ⟨b', hreq⟩ := hon.request_eq
  rw [hst', hreq]
  exact ⟨fun h => h.body_eq, fun h => ⟨hmethod, hurl, hheaders, h⟩⟩

/-- A negative declared length: the worker takes it for no body, the epoll client waits
for a piece and dispatches a longer body. -/
theorem not_agrees_of_neg (hneg : httpGetContentLength rq < 0) :
    ¬ Agrees (.complete { st.request with
      body := ⟨(st.buff.drop size).length, some (st.buff.drop size)⟩ }) o [] := by
  rw [agrees_complete_iff]
  rintro ⟨rq', hio, hsame⟩
  have hlong : Epoll.tooLong (httpGetContentLength rq) st.buff.length = false := by
    have hmem := httpGetContentLength_mem rq
    have hle := hon.length_le
    rw [maxBuffr_eq] at hle
    unfold Epoll.tooLong
    rw [CInt.toInt32_of_mem (by omega) (by omega), decide_eq_false_iff_not, maxBuffr_eq]
    omega
  obtain ⟨fuel, cd, -, hb, ho⟩ := hon.body hlong (by omega)
  have hlt := Epoll.length_lt_of_dispatch hb (ho.symm.trans hio) hsame.body_eq
  rw [List.length_drop] at hlt
  omega

/-- No body: the epoll client dispatches an empty one, the worker everything it has
read. -/
theorem agrees_noBody_iff (hzero : httpGetContentLength rq = 0) :
    Agrees (.complete { st.request with
        body := ⟨(st.buff.drop size).length, some (st.buff.drop size)⟩ }) o [] ↔
      st.buff.length = size ∧ st.buff.length < maxBuffr := by
  have hsize := hon.size_le
  have hlong := tooLong_eq (Nat.zero_le _) hon.length_le
  rw [agrees_complete_iff]
  by_cases hfull : maxBuffr ≤ st.buff.length
  · have ho := hon.tooLong (by rw [hzero]; exact hlong.trans (decide_eq_true hfull))
    constructor
    · rintro ⟨rq', h, -⟩
      rw [ho] at h
      exact absurd h (by simp)
    · rintro ⟨-, h⟩
      omega
  · have ho := hon.noBody (by rw [hzero]; exact hlong.trans (decide_eq_false hfull)) hzero
    have hsame := hon.sameRequest_iff st rfl rq rfl rfl rfl
      ⟨(st.buff.drop size).length, some (st.buff.drop size)⟩
    rw [hon.body_eq] at hsame
    simp only [Option.some.injEq, eq_comm (a := ([] : Bytes)), List.drop_eq_nil_iff] at hsame
    constructor
    · rintro ⟨rq', h, h'⟩
      rw [ho] at h
      obtain rfl := Epoll.ClientOutcome.dispatch.inj h
      have := hsame.1 h'
      omega
    · rintro ⟨h, -⟩
      exact ⟨rq, ho, hsame.2 (by omega)⟩

/-- A body that fits and has not arrived. -/
theorem agrees_missing_iff {cl : ℕ} (hcl : httpGetContentLength rq = cl) (hpos : 0 < cl)
    (hfit : cl ≤ maxBuffr) :
    Agrees .closed o [] ↔ maxBuffr ≤ st.buff.length + cl ∨
      Epoll.bodyFate cl st.buff.length (rest.map List.length) = .closed := by
  have hlong := tooLong_eq hfit hon.length_le
  rw [← hcl] at hlong
  rw [agrees_closed_iff]
  by_cases hfull : maxBuffr ≤ st.buff.length + cl
  · exact ⟨fun _ => Or.inl hfull, fun _ => ⟨_, hon.tooLong (hlong.trans (decide_eq_true hfull))⟩⟩
  · obtain ⟨fuel, cd, hfuel, hb, ho⟩ := hon.body (hlong.trans (decide_eq_false hfull)) (by omega)
    rw [hcl] at hb
    have hlen := hon.length_le
    rw [ho, Epoll.readPieces_readingBody hfit hon.rest_ne hb (by omega) hfuel]
    cases Epoll.bodyFate cl st.buff.length (rest.map List.length) with
    | dispatched level => simp [Epoll.BodyFate.outcome, hfull]
    | closed => simp [Epoll.BodyFate.outcome]
    | corrupted => simp [Epoll.BodyFate.outcome, hfull]

/-- A body that fits and has arrived. -/
theorem agrees_arrived_iff {cl : ℕ} (hcl : httpGetContentLength rq = cl) (hpos : 0 < cl)
    (hfit : size + cl ≤ maxBuffr) (harrives : size + cl ≤ (st.buff ++ rest.flatten).length)
    {st' : Worker.State} (hst' : st'.request = st.request)
    (hbuff : st'.buff = (Buffer.fill maxBuffr (size + cl) st.buff rest).1) :
    Agrees (.complete { st'.request with
        body := ⟨(st'.buff.drop size).length, some (st'.buff.drop size)⟩ }) o [] ↔
      st.buff.length + cl < maxBuffr ∧
        ∃ level, Epoll.bodyFate cl st.buff.length (rest.map List.length) = .dispatched level ∧
          level + level ≤ maxBuffr ∧
            Buffer.StopsAt maxBuffr (size + cl) st.buff.length rest (size + level) ∧
              ((st.buff ++ rest.flatten).drop size).take level = List.replicate level 0 := by
  -- the bytes the worker hands on are the zero bytes the epoll client is given
  have hzeros : ∀ level, st'.buff.drop size = List.replicate level 0 ↔
      Buffer.StopsAt maxBuffr (size + cl) st.buff.length rest (size + level) ∧
        ((st.buff ++ rest.flatten).drop size).take level = List.replicate level 0 := by
    intro level
    have h := @Buffer.drop_fill_eq_iff _ maxBuffr (size + cl) st.buff rest hfit hon.length_le
      harrives size (Nat.le_add_right size cl) (List.replicate level 0)
    rwa [List.length_replicate, ← hbuff] at h
  simp only [← hzeros]
  have hcap : cl ≤ maxBuffr := by omega
  have hlong := tooLong_eq hcap hon.length_le
  rw [← hcl] at hlong
  rw [agrees_complete_iff]
  by_cases hfull : maxBuffr ≤ st.buff.length + cl
  · have ho := hon.tooLong (hlong.trans (decide_eq_true hfull))
    constructor
    · rintro ⟨rq', h, -⟩
      rw [ho] at h
      exact absurd h (by simp)
    · rintro ⟨h, -⟩
      omega
  · obtain ⟨fuel, cd, hfuel, hb, ho⟩ := hon.body (hlong.trans (decide_eq_false hfull)) (by omega)
    rw [hcl] at hb
    have hlen := hon.length_le
    rw [ho, Epoll.readPieces_readingBody hcap hon.rest_ne hb (by omega) hfuel]
    cases Epoll.bodyFate cl st.buff.length (rest.map List.length) with
    | closed => simp [Epoll.BodyFate.outcome]
    | corrupted => simp [Epoll.BodyFate.outcome]
    | dispatched level =>
      have hsame := hon.sameRequest_iff st' hst' (Epoll.dispatchedAt rq level) rfl rfl rfl
        ⟨(st'.buff.drop size).length, some (st'.buff.drop size)⟩
      simp only [Epoll.dispatchedAt] at hsame
      constructor
      · rintro ⟨rq', h, h'⟩
        obtain rfl := Epoll.ClientOutcome.dispatch.inj h
        have hbytes := hsame.1 h'
        split_ifs at hbytes with hroom
        exact ⟨by omega, level, rfl, hroom, (Option.some.inj hbytes).symm⟩
      · rintro ⟨-, level', h, hroom, hdrop⟩
        obtain rfl := Epoll.BodyFate.dispatched.inj h
        exact ⟨_, rfl, hsame.2 (by rw [if_pos hroom, hdrop])⟩

/-- **Behind the header block.** -/
theorem agrees_receiveBody_iff :
    Agrees (receiveBody size st rest) o [] ↔ BodyAgreeable size st rest := by
  have hcl : httpGetContentLength st.request = httpGetContentLength rq := by
    obtain ⟨b, hreq⟩ := hon.request_eq
    rw [hreq]
    rfl
  have hsize := hon.size_le
  have hlen := hon.length_le
  unfold receiveBody BodyAgreeable
  simp only [hcl]
  by_cases hbig : (maxBuffr : Int) - size < httpGetContentLength rq
  · rw [if_pos hbig]
    have h := not_agrees_rejected o
    constructor
    · exact fun h' => absurd h' h
    · rintro (⟨h0, -⟩ | ⟨-, h0, -⟩)
      · omega
      · omega
  · rw [if_neg hbig]
    rcases Int.lt_trichotomy (httpGetContentLength rq) 0 with hneg | hzero | hpos
    · rw [Worker.readBody_of_le .closed (by omega) rest]
      constructor
      · exact fun h => absurd h (not_agrees_of_neg hon hneg)
      · rintro (⟨h0, -⟩ | ⟨h0, -⟩)
        · omega
        · omega
    · rw [hzero, Worker.readBody_of_le .closed (by omega) rest]
      simp only
      rw [agrees_noBody_iff hon hzero]
      constructor
      · exact fun h => Or.inl ⟨trivial, h⟩
      · rintro (⟨-, h⟩ | ⟨h0, -⟩)
        · exact h
        · omega
    · obtain ⟨cl, hnat⟩ : ∃ cl : ℕ, httpGetContentLength rq = cl :=
        ⟨(httpGetContentLength rq).toNat, by omega⟩
      rw [hnat] at hbig hpos ⊢
      have hstream : (st.buff ++ rest.flatten).length = st.buff.length + rest.flatten.length :=
        List.length_append
      cases hbody : Worker.readBody .closed size cl st rest with
      | mk received st' =>
        rcases Worker.readBody_closed size cl rest st with h | h
        · rw [hbody] at h
          obtain rfl : received = none := h
          have hle := Worker.le_of_readBody_eq_none hbody
          have hfill := @Worker.readBody_eq_fill .closed size cl rest hon.rest_ne st
            (by omega) (by omega)
          rw [hbody] at hfill
          have hst' := (Prod.mk.inj hfill).2
          simp only
          rw [agrees_arrived_iff hon hnat (by omega) (by omega) (by omega)
            (by rw [hst']) (by rw [hst'])]
          constructor
          · rintro ⟨hroom, hfate⟩
            exact Or.inr ⟨hpos, by omega, Or.inr ⟨by omega, by omega, hfate⟩⟩
          · rintro (⟨h0, -⟩ | ⟨-, -, ⟨hlt, -⟩ | ⟨-, hroom, hfate⟩⟩)
            · omega
            · omega
            · exact ⟨by omega, hfate⟩
        · rw [hbody] at h
          obtain rfl : received = some .closed := h
          have hmiss : ¬ (size + (cl : Int) ≤ (st.buff ++ rest.flatten).length) := by
            intro hle
            obtain ⟨buff, hdone⟩ := Worker.readBody_of_fits .closed size cl hon.rest_ne
              (by omega) hle
            rw [hbody] at hdone
            exact absurd (congrArg Prod.fst hdone) (by simp)
          simp only
          rw [agrees_missing_iff hon hnat (by omega) (by omega)]
          constructor
          · intro hfate
            refine Or.inr ⟨hpos, by omega, Or.inl ⟨by omega, ?_⟩⟩
            exact hfate.imp (fun hroom => by omega) id
          · rintro (⟨h0, -⟩ | ⟨-, -, ⟨-, hfate⟩ | ⟨hle, -⟩⟩)
            · omega
            · exact hfate.imp (fun hroom => by omega) id
            · omega

end Body

/-! ## The whole connection -/

/-- The exact condition: the header block does not end before the peer closes and is
not rejected, or the two agree behind it. -/
def Agreeable (rq : HttpRequest) (pieces : List Bytes) : Prop :=
  match Worker.readHeader .closed (.initial rq) pieces with
  | .stop received _ => received = .closed
  | .block size st rest => BodyAgreeable size st rest

theorem receive_fst_of_block {rq : HttpRequest} {pieces : List Bytes} {size : ℕ}
    {st : Worker.State} {rest : List Bytes}
    (h : Worker.readHeader .closed (.initial rq) pieces = .block size st rest) :
    (Worker.receive (.initial rq) pieces .closed).1 = receiveBody size st rest := by
  unfold Worker.receive receiveBody
  simp only [h]
  split_ifs
  · rfl
  · cases Worker.readBody .closed size (httpGetContentLength st.request) st rest with
    | mk received st' => cases received <;> rfl

/-- What was sent to the epoll client matters only where it was closed, and then it is
nothing. -/
theorem agrees_arrive_iff (t : Worker.Received) (sc : ServerConf) (fuel : ℕ)
    (cd : Epoll.ClientData) (pieces : List Bytes) (env : Env) :
    Agrees t (Epoll.arrive sc fuel cd pieces ⟨env, []⟩).1
        (Epoll.arrive sc fuel cd pieces ⟨env, []⟩).2.sent ↔
      Agrees t (Epoll.readPieces fuel cd pieces) [] := by
  cases ho : Epoll.readPieces fuel cd pieces with
  | close cause =>
    rw [Epoll.sent_arrive_of_close ho]
    exact Iff.rfl
  | keep cd' => simp only [Epoll.arrive, ho]; cases t <;> exact Iff.rfl
  | dispatch rq => simp only [Epoll.arrive, ho]; cases t <;> exact Iff.rfl
  | corrupt => simp only [Epoll.arrive, ho]; cases t <;> exact Iff.rfl

/-- **When the two servers agree.**  The pieces, the descriptor, the configuration, the
results of the system calls and what the stack of the worker holds are arbitrary. -/
theorem agrees_iff (sc : ServerConf) (fd : ℕ) (env : Env) (rq : HttpRequest)
    {pieces : List Bytes} (hne : ∀ p ∈ pieces, p ≠ []) :
    Agrees (Worker.receive (.initial rq) pieces .closed).1
        (Epoll.arrive sc (pieces.flatten.length + 1) (Epoll.newClient fd) pieces ⟨env, []⟩).1
        (Epoll.arrive sc (pieces.flatten.length + 1) (Epoll.newClient fd) pieces
          ⟨env, []⟩).2.sent ↔
      Agreeable rq pieces := by
  have hshort : (Worker.State.initial rq).buff.length < maxBuffr := by
    show 0 < maxBuffr
    decide
  obtain ⟨hclosed, hblock⟩ := lockstep hne (Epoll.readingHeaders_newClient fd : Epoll.ReadingHeaders
    (Worker.State.initial rq).buff (Epoll.newClient fd)) hshort (Nat.lt_succ_self _)
  rw [agrees_arrive_iff]
  unfold Agreeable
  cases hread : Worker.readHeader .closed (.initial rq) pieces with
  | block size st rest =>
    obtain ⟨rq', hon⟩ := hblock size st rest hread
    rw [receive_fst_of_block hread]
    exact agrees_receiveBody_iff hon
  | stop received st =>
    have hreceive : (Worker.receive (.initial rq) pieces .closed).1 = received := by
      simp only [Worker.receive, hread]
    rw [hreceive]
    rcases Worker.readHeader_closed hread with rfl | rfl | rfl
    · obtain ⟨cause, ho⟩ := hclosed st hread
      rw [ho, agrees_closed_iff]
      simp
    · simp [not_agrees_rejected]
    · simp [Agrees]

/-- A request line that ends where the URL should be. -/
def badPieces : List Bytes := [ascii "BAD\r\n\r\n"]

/-- The worker answers `400`, the epoll server closes without a word. -/
theorem badPieces_not_agrees :
    (Worker.receive (.initial .zeroed) badPieces .closed).1 = .rejected ∧
      ¬ Agrees (Worker.receive (.initial .zeroed) badPieces .closed).1
        (Epoll.arrive sampleConf (badPieces.flatten.length + 1) (Epoll.newClient 7) badPieces
          ⟨Epoll.roomyEnv, []⟩).1
        (Epoll.arrive sampleConf (badPieces.flatten.length + 1) (Epoll.newClient 7) badPieces
          ⟨Epoll.roomyEnv, []⟩).2.sent := by
  have ht : (Worker.receive (.initial .zeroed) badPieces .closed).1 = .rejected := by
    decide +kernel
  rw [agrees_arrive_iff, ht]
  exact ⟨rfl, not_agrees_rejected _⟩

/-- A request without a body, in two pieces. -/
def goodPieces : List Bytes := [ascii "GET /a.txt HTTP", ascii "/1.1\r\n\r\n"]

theorem goodPieces_agrees :
    (∀ p ∈ goodPieces, p ≠ []) ∧ Agreeable .zeroed goodPieces := by
  have hne : ∀ p ∈ goodPieces, p ≠ [] := by decide
  refine ⟨hne, ?_⟩
  rw [← agrees_iff sampleConf 7 Epoll.roomyEnv .zeroed hne, agrees_arrive_iff]
  have ht : (Worker.receive (.initial .zeroed) goodPieces .closed).1 =
      .complete Epoll.fileRequest := by
    decide +kernel
  have he : Epoll.readPieces (goodPieces.flatten.length + 1) (Epoll.newClient 7) goodPieces =
      .dispatch Epoll.fileRequest := by
    rfl
  rw [ht, he, agrees_complete_iff]
  exact ⟨_, rfl, rfl, rfl, rfl, rfl⟩

end Agreement
end BareHttp
