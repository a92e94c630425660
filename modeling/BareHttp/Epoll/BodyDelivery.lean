import BareHttp.Epoll.Segmentation

/-!
# The body the epoll server hands on

A request with a body should reach `http_process_request` once, when its last byte
has arrived, with the body it was sent with.  `DeliversBody` says so for one way of
cutting the request into pieces.

The branch `CLIENT_READING_BODY` passes `cd->rq + cd->rq_size` as the body and
`cd->rq_size - cd->header_len` as its size.  No statement assigns `header_len`, so
the size is the fill level, which is at least the number of bytes received, header
block included.  `not_deliversBody` concludes that the size is wrong for every
request and every cut; when the whole body arrives together with the end of the
header block the request is not dispatched at all.
-/

namespace BareHttp
namespace Epoll

open Pico

/-- A header block `h` accepted as a whole, whose `Content-Length` is the length of
a nonempty body `b`, small enough for the buffer. -/
structure BodyRequest (h b : Bytes) : Prop where
  parsed : (httpParseRequest h .zeroed 0).1 = .parsed h.length
  contentLength : httpGetContentLength (httpParseRequest h .zeroed 0).2 = b.length
  pos : 0 < b.length
  fits : h.length + b.length < maxBuffr

/-- After all pieces one request has been dispatched, with body `b`, and none before
the last piece. -/
def DeliversBody (fd : ℕ) (b : Bytes) (pieces : List Bytes) : Prop :=
  (∃ rq, (feed fd pieces).dispatched = [rq] ∧ rq.body = ⟨b.length, some b⟩) ∧
    ∀ before after, pieces = before ++ after → after ≠ [] → (feed fd before).dispatched = []

/-- What the body branch relies on while the connection is open: the fill level has
counted every byte received, and `header_len` and the body are as `calloc` left
them. -/
structure Untouched (n : ℕ) (cd : ClientData) : Prop where
  le_rqSize : n ≤ cd.rqSize
  headerLen_eq : cd.headerLen = 0
  body_eq : cd.httpRq.body = ⟨0, some []⟩
  state_ne : cd.state ≠ .sendingResponse

theorem untouched_keep {n : ℕ} {cd cd' : ClientData} {c : Bytes} (hu : Untouched n cd)
    (h : clientIo cd (.data c) = .keep cd') : Untouched (n + c.length) cd' := by
  have hn := hu.le_rqSize
  rcases clientIo_eq_keep h with ⟨hr, -⟩ | ⟨bytes, hr, -, hsize, -, hhl, hst, -, hbody⟩
  · exact absurd hr (by simp)
  · obtain rfl := RecvResult.data.inj hr
    refine ⟨?_, hhl.trans hu.headerLen_eq, hbody.trans hu.body_eq,
      fun hst' => hu.state_ne (hst hst')⟩
    rcases hsize with ⟨-, hsize⟩ | ⟨-, -, hsize⟩ | ⟨hsend, -⟩
    · omega
    · omega
    · exact absurd hsend hu.state_ne

theorem untouched_of_feed_eq_live {fd : ℕ} {pieces : List Bytes} {cd : ClientData}
    (h : (feed fd pieces).conn = .live cd) : Untouched pieces.flatten.length cd := by
  induction pieces using List.reverseRecOn generalizing cd with
  | nil =>
    obtain rfl : newClient fd = cd := Conn.live.inj h
    exact ⟨Nat.zero_le _, rfl, rfl, by simp [newClient]⟩
  | append_singleton pieces c ih =>
    rw [feed_append_singleton] at h
    rw [List.flatten_append, List.flatten_singleton, List.length_append]
    cases hconn : (feed fd pieces).conn with
    | live cd₀ =>
      simp only [feedStep, hconn] at h
      cases hio : clientIo cd₀ (.data c) with
      | keep cd₁ =>
        simp only [hio] at h
        obtain rfl := Conn.live.inj h
        exact untouched_keep (ih hconn) hio
      | close cause => simp [hio] at h
      | dispatch rq => simp [hio] at h
      | corrupt => simp [hio] at h
    | closed cause => simp [feedStep, hconn] at h
    | served => simp [feedStep, hconn] at h
    | corrupted => simp [feedStep, hconn] at h

/-- A request dispatched with the last piece has no body, or a body as long as
everything that was received. -/
theorem body_size_of_dispatch {n : ℕ} {cd : ClientData} {c : Bytes} {rq : HttpRequest}
    (hu : Untouched n cd) (h : clientIo cd (.data c) = .dispatch rq) :
    rq.body.size = 0 ∨ (n + c.length : Int) ≤ rq.body.size := by
  obtain ⟨bytes, hr, -, hkind⟩ := clientIo_eq_dispatch h
  obtain rfl := RecvResult.data.inj hr
  have hn := hu.le_rqSize
  rcases hkind with ⟨-, hbody⟩ | ⟨-, rfl⟩
  · left
    rw [hbody, hu.body_eq]
  · right
    simp only [httpAddBody, hu.headerLen_eq]
    omega

/-- **No cut of any request with a body is delivered as sent.** -/
theorem not_deliversBody (fd : ℕ) {h b : Bytes} (hreq : BodyRequest h b) {pieces : List Bytes}
    (hne : ∀ c ∈ pieces, c ≠ []) (hflat : pieces.flatten = h ++ b) :
    ¬ DeliversBody fd b pieces := by
  rintro ⟨⟨rq, hrq, hbody⟩, hearly⟩
  have hpos := hreq.pos
  have hh : 0 < h.length := by
    rcases Nat.eq_zero_or_pos h.length with h0 | h0
    · have hnil := List.eq_nil_of_length_eq_zero h0
      have hp := hreq.parsed
      rw [hnil] at hp
      exact absurd hp (by decide)
    · exact h0
  have hpieces : pieces ≠ [] := by
    rintro rfl
    have := congrArg List.length hflat
    rw [List.flatten_nil, List.length_nil, List.length_append] at this
    omega
  obtain ⟨before, c, hsplit⟩ := List.eq_nil_or_concat' pieces |>.resolve_left hpieces
  have hnone := hearly before [c] hsplit (by simp)
  rw [hsplit, feed_append_singleton] at hrq
  cases hconn : (feed fd before).conn with
  | closed cause => simp [feedStep, hconn, hnone] at hrq
  | served => simp [feedStep, hconn, hnone] at hrq
  | corrupted => simp [feedStep, hconn, hnone] at hrq
  | live cd =>
    simp only [feedStep, hconn, hnone] at hrq
    cases hio : clientIo cd (.data c) with
    | keep cd' => simp [hio] at hrq
    | close cause => simp [hio] at hrq
    | corrupt => simp [hio] at hrq
    | dispatch rq' =>
      simp only [hio, List.nil_append, List.cons.injEq, and_true] at hrq
      have htotal : before.flatten.length + c.length = h.length + b.length := by
        rw [← List.length_append, ← List.length_append, ← hflat, hsplit]
        simp
      have hsize := body_size_of_dispatch (untouched_of_feed_eq_live hconn) hio
      rw [hrq, hbody] at hsize
      simp only at hsize
      omega

/-- A form sent to a script: header block and body. -/
def formHeader : Bytes := ascii "POST /cgi-bin/hello.py HTTP/1.1\r\nContent-Length: 10\r\n\r\n"

/-- The body of the form. -/
def formBody : Bytes := ascii "name=alice"

theorem bodyRequest_form : BodyRequest formHeader formBody :=
  ⟨by decide, by decide, by decide, by decide⟩

theorem form_not_deliversBody : ¬ DeliversBody 7 formBody [formHeader, formBody] :=
  not_deliversBody 7 bodyRequest_form (by decide) rfl

/-- Cut at the end of the header block, the form is dispatched with sixty-five zero
bytes for a body; sent in one piece it is not dispatched. -/
theorem form_dispatched :
    (feed 7 [formHeader, formBody]).dispatched.map (·.body) =
        [⟨65, some (List.replicate 65 0)⟩] ∧
      (feed 7 [formHeader ++ formBody]).dispatched = [] ∧
      ¬ DeliversBody 7 formBody [formHeader, formBody] ∧
      ¬ DeliversBody 7 formBody [formHeader ++ formBody] := by
  have h1 : (feed 7 [formHeader, formBody]).dispatched.map (·.body) =
      [⟨65, some (List.replicate 65 0)⟩] := by
    decide +kernel
  have h2 : (feed 7 [formHeader ++ formBody]).dispatched = [] := by
    decide +kernel
  refine ⟨h1, h2, ?_, ?_⟩
  · rintro ⟨⟨rq, hrq, hbody⟩, -⟩
    rw [hrq, List.map_singleton, hbody] at h1
    exact absurd h1 (by decide)
  · rintro ⟨⟨rq, hrq, -⟩, -⟩
    rw [hrq] at h2
    exact absurd h2 (by simp)

end Epoll
end BareHttp
