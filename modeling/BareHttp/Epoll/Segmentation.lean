import Mathlib.Data.List.Induction
import BareHttp.Epoll.Client

/-!
# One connection fed in pieces

`feed` runs the client branch of the epoll server over the pieces `recv` delivers
on one connection, from the accept on, and keeps the list of requests handed to
`http_process_request`.

While the header block is incomplete the state of the client is determined by the
bytes received: `ReadingHeaders p cd` says that `p` has arrived and nothing is
decided.  `clientIo_readingHeaders` reads one more piece in that state.  The rest
follows from what the parser does on prefixes, and the main result is that the way
a header block is cut into pieces does not matter
(`feed_eq_served_of_headers`).
-/

namespace BareHttp
namespace Epoll

open Pico

/-- What has become of a connection. -/
inductive Conn where
  | live (cd : ClientData)
  | closed (cause : CloseCause)
  | served
  | corrupted

/-- A connection and the requests dispatched on it so far. -/
structure Feed where
  conn : Conn
  dispatched : List HttpRequest

/-- One more piece.  Nothing is read from a connection that is gone. -/
def feedStep (f : Feed) (piece : Bytes) : Feed :=
  match f.conn with
  | .live cd =>
    match clientIo cd (.data piece) with
    | .keep cd' => ⟨.live cd', f.dispatched⟩
    | .close cause => ⟨.closed cause, f.dispatched⟩
    | .dispatch rq => ⟨.served, f.dispatched ++ [rq]⟩
    | .corrupt => ⟨.corrupted, f.dispatched⟩
  | _ => f

/-- A new connection on descriptor `fd`, fed with `pieces`. -/
def feed (fd : ℕ) (pieces : List Bytes) : Feed :=
  pieces.foldl feedStep ⟨.live (newClient fd), []⟩

theorem feed_append_singleton (fd : ℕ) (pieces : List Bytes) (piece : Bytes) :
    feed fd (pieces ++ [piece]) = feedStep (feed fd pieces) piece := by
  simp [feed, List.foldl_append]

/-- The bytes `p` have arrived and the header block is not complete. -/
structure ReadingHeaders (p : Bytes) (cd : ClientData) : Prop where
  state_eq : cd.state = .readingHeaders
  rqSize_eq : cd.rqSize = p.length
  received_eq : cd.received = p
  zero_above : ∀ i, p.length ≤ i → cd.rq i = 0
  pad_eq : cd.httpRq.headersPad = 0
  body_eq : cd.httpRq.body = ⟨0, some []⟩
  headerLen_eq : cd.headerLen = 0

theorem readingHeaders_newClient (fd : ℕ) : ReadingHeaders [] (newClient fd) where
  state_eq := rfl
  rqSize_eq := rfl
  received_eq := rfl
  zero_above := fun _ _ => rfl
  pad_eq := rfl
  body_eq := rfl
  headerLen_eq := rfl

/-- The client after the piece `c` was stored in the header state. -/
def ClientData.advance (cd : ClientData) (c : Bytes) (rq : HttpRequest) : ClientData :=
  { cd with
    rq := Buffer.write cd.rq cd.rqSize c, lastLen := cd.rqSize, rqSize := cd.rqSize + c.length,
    httpRq := rq }

/-- **One more piece of the header block.**  The parser sees everything received,
with the previous length as `last_len`. -/
theorem clientIo_readingHeaders {p c : Bytes} {cd : ClientData} (hl : ReadingHeaders p cd)
    (hfit : p.length + c.length ≤ maxBuffr) :
    clientIo cd (.data c) =
      match phrParseRequest maxHeaders maxHeaders p.length (p ++ c) with
      | .incomplete =>
        if maxBuffr ≤ p.length + c.length then .close .tooLongRequest
        else .keep (cd.advance c cd.httpRq.cleared)
      | .fail .invalid => .close .invalidRequest
      | .fail .overrun => .corrupt
      | .done r _ =>
        let bodyLen := httpGetContentLength (cd.httpRq.filled r)
        if tooLong bodyLen (p.length + c.length) then .close .tooLongBody
        else if bodyLen = 0 then .dispatch (cd.httpRq.filled r)
        else .keep
          { cd.advance c (cd.httpRq.filled r) with bodyLen := bodyLen, state := .readingBody } := by
  have hnot : ¬ maxBuffr < cd.rqSize + c.length := by
    rw [hl.rqSize_eq]
    omega
  have hrecv : Buffer.slice (Buffer.write cd.rq cd.rqSize c) 0 (cd.rqSize + c.length) = p ++ c := by
    rw [Buffer.slice_write_append]
    congr 1
    exact hl.received_eq
  simp only [clientIo, if_neg hnot, hl.state_eq, readHeaders, ClientData.received, hrecv,
    httpParseRequest, HttpRequest.headerLimit_eq hl.pad_eq, ClientData.advance]
  rw [hl.rqSize_eq]
  cases hp : phrParseRequest maxHeaders maxHeaders p.length (p ++ c) with
  | done r rest => rfl
  | incomplete => rfl
  | fail e => cases e <;> rfl

/-- The header state after a piece that does not complete the block. -/
theorem readingHeaders_advance {p c : Bytes} {cd : ClientData} (hl : ReadingHeaders p cd) :
    ReadingHeaders (p ++ c) (cd.advance c cd.httpRq.cleared) where
  state_eq := hl.state_eq
  rqSize_eq := by
    rw [List.length_append, ← hl.rqSize_eq]
    rfl
  received_eq := by
    simp only [ClientData.received, ClientData.advance]
    rw [Buffer.slice_write_append]
    congr 1
    exact hl.received_eq
  zero_above := by
    intro i hi
    rw [List.length_append] at hi
    simp only [ClientData.advance]
    rw [Buffer.write_of_ge _ _ (by rw [hl.rqSize_eq]; exact hi)]
    exact hl.zero_above i (by omega)
  pad_eq := rfl
  body_eq := hl.body_eq
  headerLen_eq := hl.headerLen_eq

/-- What a request filled in from a parse contains, in the header state. -/
theorem filled_eq_zeroed_filled {p : Bytes} {cd : ClientData} (hl : ReadingHeaders p cd)
    (r : Parsed) : cd.httpRq.filled r = HttpRequest.zeroed.filled r := by
  simp only [HttpRequest.filled, HttpRequest.zeroed, hl.body_eq]

/-! ## A header block without a body -/

section Headers

variable {h : Bytes} {r : Parsed} (hparse : parseRequest maxHeaders maxHeaders h = .done r [])
include hparse

/-- A proper part of an accepted block leaves the client waiting. -/
theorem feed_eq_live_of_headers (fd : ℕ) (hlen : h.length ≤ maxBuffr - 1) {pieces : List Bytes}
    {x : Bytes} (hx : x ≠ []) (hsplit : pieces.flatten ++ x = h) :
    ∃ cd, feed fd pieces = ⟨.live cd, []⟩ ∧ ReadingHeaders pieces.flatten cd := by
  induction pieces using List.reverseRecOn generalizing x with
  | nil => exact ⟨newClient fd, rfl, readingHeaders_newClient fd⟩
  | append_singleton pieces c ih =>
    rw [List.flatten_append, List.flatten_singleton, List.append_assoc] at hsplit
    obtain ⟨cd, hfeed, hl⟩ := ih (x := c ++ x) (by simp [hx]) hsplit
    have hlt : pieces.flatten.length + c.length < maxBuffr := by
      have h1 := congrArg List.length hsplit
      have h2 := List.length_pos_of_ne_nil hx
      rw [List.length_append, List.length_append] at h1
      omega
    have hinc : phrParseRequest maxHeaders maxHeaders pieces.flatten.length (pieces.flatten ++ c) =
        .incomplete :=
      phrParseRequest_cut (by rw [List.append_assoc, hsplit]; exact hparse) hx
    refine ⟨cd.advance c cd.httpRq.cleared, ?_, ?_⟩
    · rw [feed_append_singleton, hfeed]
      simp only [feedStep, clientIo_readingHeaders hl (Nat.le_of_lt hlt), hinc,
        if_neg (Nat.not_le.mpr hlt)]
    · rw [List.flatten_append, List.flatten_singleton]
      exact readingHeaders_advance hl

/-- The answer to each piece of an accepted block: the last one completes it. -/
theorem phrParseRequest_of_pieces {before after : List Bytes} {c : Bytes}
    (hne : ∀ d ∈ before ++ c :: after, d ≠ []) (hflat : (before ++ c :: after).flatten = h) :
    phrParseRequest maxHeaders maxHeaders before.flatten.length (before.flatten ++ c) =
      if after = [] then .done r [] else .incomplete := by
  have hall : before.flatten ++ c ++ after.flatten = h := by
    rw [← hflat]
    simp
  split_ifs with hafter
  · subst hafter
    rw [List.flatten_nil, List.append_nil] at hall
    refine phrParseRequest_whole (by rw [hall]; exact hparse) ?_
    have hpos := List.length_pos_of_ne_nil (hne c (by simp))
    rw [List.length_append, List.length_nil]
    omega
  · refine phrParseRequest_cut (x := after.flatten) (by rw [hall]; exact hparse) fun hnil => ?_
    obtain ⟨d, hd⟩ := List.exists_mem_of_ne_nil after hafter
    exact hne d (by simp [hd]) (List.flatten_eq_nil_iff.mp hnil d hd)

end Headers

/-- A request without a body is not too long before the buffer is full. -/
theorem tooLong_zero {n : ℕ} (h : n ≤ maxBuffr - 1) : tooLong 0 n = false := by
  rw [maxBuffr_eq] at h
  rw [tooLong, CInt.toInt32_of_mem (by omega) (by omega), maxBuffr_eq, decide_eq_false_iff_not]
  omega

/-- **The cut of a header block does not matter.**  Let a one-shot parse accept `h` as
a whole and let it declare no body.  However `h` is cut into nonempty pieces, when
a piece arrives the client is still reading headers and holds exactly the pieces
before it; the parse with the previous length as `last_len` answers `incomplete`
unless this is the last piece; and after the last piece the request of the
one-shot parse has been dispatched, once. -/
theorem feed_eq_served_of_headers (fd : ℕ) {h : Bytes} {rq : HttpRequest} {pieces : List Bytes}
    (hlen : h.length ≤ maxBuffr - 1)
    (hparse : httpParseRequest h .zeroed 0 = (.parsed h.length, rq))
    (hbody : httpGetContentLength rq = 0) (hne : ∀ c ∈ pieces, c ≠ [])
    (hflat : pieces.flatten = h) :
    (∀ before c after, pieces = before ++ c :: after →
      ∃ cd, feed fd before = ⟨.live cd, []⟩ ∧ cd.state = .readingHeaders ∧
        cd.received = before.flatten ∧
        (httpParseRequest (cd.received ++ c) cd.httpRq cd.rqSize).1 =
          if after = [] then .parsed h.length else .incomplete) ∧
    feed fd pieces = ⟨.served, [rq]⟩ := by
  obtain ⟨r, hr, hrq⟩ := parseRequest_of_httpParseRequest hparse
  have hpos : h ≠ [] := by
    rintro rfl
    exact absurd (isCompleteLoop_of_parseRequest hr) (by simp [isCompleteLoop])
  have hbefore : ∀ before c after, pieces = before ++ c :: after →
      ∃ cd, feed fd before = ⟨.live cd, []⟩ ∧ ReadingHeaders before.flatten cd := by
    intro before c after hsplit
    refine feed_eq_live_of_headers hr fd hlen (x := c ++ after.flatten) ?_ ?_
    · have hc : c ≠ [] := hne c (by rw [hsplit]; simp)
      simp [hc]
    · rw [← hflat, hsplit]
      simp
  have hanswer : ∀ before c after, pieces = before ++ c :: after →
      phrParseRequest maxHeaders maxHeaders before.flatten.length (before.flatten ++ c) =
        if after = [] then .done r [] else .incomplete := by
    rintro before c after rfl
    exact phrParseRequest_of_pieces hr hne hflat
  have hlast : ∀ before c, pieces = before ++ [c] → before.flatten ++ c = h := by
    rintro before c rfl
    rw [← hflat]
    simp
  constructor
  · intro before c after hsplit
    obtain ⟨cd, hfeed, hl⟩ := hbefore before c after hsplit
    refine ⟨cd, hfeed, hl.state_eq, hl.received_eq, ?_⟩
    rw [hl.received_eq, hl.rqSize_eq]
    unfold httpParseRequest
    rw [HttpRequest.headerLimit_eq hl.pad_eq, hanswer before c after hsplit]
    split_ifs with hafter
    · subst hafter
      simp only [hlast before c hsplit, List.length_nil, Nat.sub_zero]
    · rfl
  · have hpieces : pieces ≠ [] := by
      rintro rfl
      exact hpos hflat.symm
    obtain ⟨before, c, hsplit⟩ := List.eq_nil_or_concat' pieces |>.resolve_left hpieces
    obtain ⟨cd, hfeed, hl⟩ := hbefore before c [] hsplit
    have hsize : before.flatten.length + c.length = h.length := by
      rw [← hlast before c hsplit, List.length_append]
    have hcl : httpGetContentLength (HttpRequest.zeroed.filled r) = 0 := by
      rw [← hrq]
      exact hbody
    rw [hsplit, feed_append_singleton, hfeed]
    simp only [feedStep]
    rw [clientIo_readingHeaders hl (by rw [hsize]; omega), hanswer before c [] hsplit]
    simp only [if_true, filled_eq_zeroed_filled hl, hcl, hsize, tooLong_zero hlen,
      Bool.false_eq_true, if_false, List.nil_append, hrq]

/-- A header block cut inside both of its last two line ends. -/
def splitLineEnds : List Bytes :=
  [ascii "GET / HTTP/1.0\r\nHost: a\r", ascii "\n\r", ascii "\n"]

theorem splitLineEnds_served :
    feed 7 splitLineEnds =
      ⟨.served, [(httpParseRequest splitLineEnds.flatten .zeroed 0).2]⟩ :=
  (feed_eq_served_of_headers 7 (h := splitLineEnds.flatten) (by decide) (by decide) (by decide)
    (by decide) rfl).2

end Epoll
end BareHttp
