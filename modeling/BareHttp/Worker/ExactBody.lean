import BareHttp.Worker.Reading

/-!
# The body a worker hands on

A worker reads until the declared length is there, and hands on what it has read behind the
header block.  That is the body if nothing else has been read, and a `recv` returns whatever
has arrived, up to the room in the buffer.  So the bytes of a body are followed by those the
client sent behind it whenever they arrive together with its end.

The two loops are one (`Buffer.fill`): they stop at the first end of a piece that is not
before the end of the body, or where the buffer is full.  `body_iff` is what this means for
the body.
-/

namespace BareHttp
namespace Worker

open Pico

/-- **The body loop on a body that fits** reads until it is there. -/
theorem readBody_eq_fill (ending : Ending) (headerSize n : ℕ) {pieces : List Bytes}
    (hne : ∀ p ∈ pieces, p ≠ []) {st : State} (hfit : headerSize + n ≤ maxBuffr)
    (hstream : headerSize + n ≤ (st.buff ++ pieces.flatten).length) :
    readBody ending headerSize n st pieces =
      (none, { st with buff := (Buffer.fill maxBuffr (headerSize + n) st.buff pieces).1 }) := by
  induction pieces generalizing st with
  | nil =>
    rw [List.flatten_nil, List.append_nil] at hstream
    simp only [readBody, Buffer.fill]
    rw [if_neg (by omega)]
  | cons p ps ih =>
    by_cases hdone : headerSize + n ≤ st.buff.length
    · rw [readBody_of_le ending (by omega), Buffer.fill_of_le hdone]
    · have hbytes : ¬ p.take (maxBuffr - st.buff.length) = [] := by
        rw [List.take_eq_nil_iff, not_or]
        exact ⟨by omega, hne p (by simp)⟩
      have hmore : (st.buff.length : Int) - headerSize < n := by omega
      simp only [readBody, if_pos hmore, if_neg hbytes, Buffer.fill, if_neg hdone]
      split_ifs with hroom
      · rw [List.take_of_length_le hroom]
        refine @ih (fun q hq => hne q (by simp [hq])) { st with buff := st.buff ++ p } ?_
        simpa [List.flatten_cons, Nat.add_assoc] using hstream
      · -- the buffer is full
        refine readBody_of_le ending ?_ ps
        simp only [List.length_append, List.length_take]
        omega

/-- **Both loops** read until the request is there. -/
theorem receive_eq_fill {st : State} (hbuff : st.buff = []) {pieces : List Bytes}
    (hne : ∀ p ∈ pieces, p ≠ []) (ending : Ending) {h : Bytes} {rq : HttpRequest} {n : ℕ}
    (hparsed : httpParseRequest h .zeroed 0 = (.parsed h.length, rq))
    (hlen : httpGetContentLength rq = n) (hfit : h.length + n ≤ maxBuffr)
    (hblock : h <+: pieces.flatten) (harrives : h.length + n ≤ pieces.flatten.length) :
    ∃ request, (receive st pieces ending).1 = .complete request ∧
      request.body =
        ⟨((Buffer.fill maxBuffr (h.length + n) [] pieces).1.drop h.length).length,
          some ((Buffer.fill maxBuffr (h.length + n) [] pieces).1.drop h.length)⟩ := by
  obtain ⟨r, hparse, hrq⟩ := parseRequest_of_httpParseRequest hparsed
  have hpos : 0 < h.length := by
    rcases Nat.eq_zero_or_pos h.length with h0 | h0
    · rw [List.eq_nil_of_length_eq_zero h0] at hparse
      exact absurd (isCompleteLoop_of_parseRequest hparse) (by simp [isCompleteLoop])
    · exact h0
  obtain ⟨st', hread, hbuff', b, hrequest⟩ := readHeader_eq_fill ending hparse (by omega) hne
    (by rw [hbuff]; exact hpos) (by rw [hbuff]; exact hblock)
  rw [hbuff] at hread hbuff'
  have hcl : httpGetContentLength st'.request = n := by
    rw [hrequest, ← hlen, hrq]
    rfl
  have happend := @Buffer.fill_append _ maxBuffr h.length [] pieces
  have hrest : ∀ q ∈ (Buffer.fill maxBuffr h.length [] pieces).2, q ≠ [] := fun q =>
    Buffer.ne_nil_of_mem_fill hne
  have hbody := @readBody_eq_fill ending h.length n _ hrest st' hfit
    (by rw [hbuff', happend]; exact harrives)
  rw [hbuff', Buffer.fill_fill (Nat.le_add_right _ _) hfit] at hbody
  have hnot : ¬ (maxBuffr : Int) - h.length < n := by omega
  simp only [receive, hread, hcl, if_neg hnot, hbody]
  exact ⟨_, rfl, rfl⟩

/-- **The body is handed on as it is exactly when the worker stops at its end**: a piece ends
there, or the buffer does. -/
theorem body_iff {st : State} (hbuff : st.buff = []) (c : Connection) {h b x : Bytes}
    {rq : HttpRequest} (hparsed : httpParseRequest h .zeroed 0 = (.parsed h.length, rq))
    (hlen : httpGetContentLength rq = b.length) (hfit : h.length + b.length ≤ maxBuffr)
    (hstream : c.stream = h ++ b ++ x) :
    ∃ request, (receive st c.pieces c.ending).1 = .complete request ∧
      (request.body = ⟨b.length, some b⟩ ↔
        (∃ k, (c.pieces.take k).flatten.length = h.length + b.length) ∨
          h.length + b.length = maxBuffr) := by
  have hflat : c.pieces.flatten = h ++ b ++ x := hstream
  have hblock : h <+: c.pieces.flatten := by
    rw [hflat, List.append_assoc]
    exact List.prefix_append _ _
  have harrives : h.length + b.length ≤ c.pieces.flatten.length := by
    rw [hflat, List.length_append, List.length_append]
    omega
  obtain ⟨request, hcomplete, hbody⟩ :=
    receive_eq_fill hbuff c.nonempty c.ending hparsed hlen hfit hblock harrives
  refine ⟨request, hcomplete, ?_⟩
  -- the buffer holds the block, the body and perhaps more of the stream
  have happend := @Buffer.fill_append _ maxBuffr (h.length + b.length) [] c.pieces
  have hreached := @Buffer.le_length_fill _ maxBuffr (h.length + b.length) [] c.pieces hfit
    (by simpa using harrives)
  have hstops := (@Buffer.length_fill_eq_iff _ maxBuffr (h.length + b.length) [] c.pieces hfit
    (Nat.zero_le _) (by simpa using harrives) (h.length + b.length)).trans
      (Buffer.StopsAt.self_iff hfit)
  simp only [List.nil_append, List.length_nil, Nat.zero_add] at hstops happend
  rw [← hstops, hbody]
  generalize (Buffer.fill maxBuffr (h.length + b.length) [] c.pieces).1 = buff at *
  obtain ⟨y, rfl⟩ : ∃ y, buff = h ++ b ++ y := by
    have hrequest : h ++ b <+: c.pieces.flatten := by
      rw [hflat]
      exact List.prefix_append _ _
    exact exists_append_of_prefixes hrequest ⟨_, happend⟩ (by simpa using hreached)
  rw [List.append_assoc, List.drop_left]
  simp only [Body.mk.injEq, Option.some.injEq, List.append_right_eq_self, List.length_append,
    Int.natCast_inj]
  constructor
  · rintro ⟨-, rfl⟩
    simp
  · intro heq
    have hy : y = [] := List.eq_nil_of_length_eq_zero (by omega)
    simp [hy]

/-- A request with a body of one byte. -/
def oneByteBlock : Bytes := ascii "POST / HTTP/1.0\r\nContent-Length: 1\r\n\r\n"

/-- The request, and more behind it: in two pieces, or in one. -/
def oneByteConnection (pieces : List Bytes) (nonempty : ∀ p ∈ pieces, p ≠ []) : Connection where
  pieces := pieces
  nonempty := nonempty
  ending := .closed
  env := Env.calm ⟨12, ascii "body"⟩ (ascii "Thu, 01 Jan 1970 00:00:00 GMT")

/-- What arrives behind the body arrives in another piece. -/
theorem twoPieces_body : ∃ request,
    (receive (.initial .zeroed) [oneByteBlock ++ ascii "a", ascii "b"] .closed).1 =
      .complete request ∧ request.body = ⟨1, some (ascii "a")⟩ := by
  obtain ⟨rq, hparsed, hlen⟩ : ∃ rq, httpParseRequest oneByteBlock .zeroed 0 =
      (.parsed oneByteBlock.length, rq) ∧ httpGetContentLength rq = (ascii "a").length :=
    ⟨_, Prod.ext (by decide +kernel) rfl, by decide +kernel⟩
  have hbuff : (State.initial .zeroed).buff = [] := rfl
  obtain ⟨request, hcomplete, hbody⟩ := body_iff hbuff
    (oneByteConnection [oneByteBlock ++ ascii "a", ascii "b"] (by decide)) hparsed hlen
    (by decide +kernel) (x := ascii "b") rfl
  exact ⟨request, hcomplete, hbody.mpr (.inl ⟨1, by decide +kernel⟩)⟩

/-- The declared length and the body of a request that was received. -/
def Received.body? : Received → Option (Int × Body)
  | .complete request => some (httpGetContentLength request, request.body)
  | _ => none

/-- **In one piece** the byte behind the body becomes a part of it. -/
theorem onePiece_body :
    (httpParseRequest oneByteBlock .zeroed 0).1 = .parsed oneByteBlock.length ∧
    ∃ request, (receive (.initial .zeroed) [oneByteBlock ++ ascii "a" ++ ascii "b"] .closed).1 =
      .complete request ∧ httpGetContentLength request = 1 ∧
        request.body = ⟨2, some (ascii "ab")⟩ ∧ request.body ≠ ⟨1, some (ascii "a")⟩ := by
  refine ⟨by decide +kernel, ?_⟩
  have hreceived : (receive (.initial .zeroed) [oneByteBlock ++ ascii "a" ++ ascii "b"]
      .closed).1.body? = some (1, ⟨2, some (ascii "ab")⟩) := by decide +kernel
  generalize (receive (.initial .zeroed) [oneByteBlock ++ ascii "a" ++ ascii "b"] .closed).1 =
    received at hreceived ⊢
  cases received with
  | complete request =>
    obtain ⟨hlen, hbody⟩ := Prod.mk.inj (Option.some.inj hreceived)
    exact ⟨request, rfl, hlen, hbody, by rw [hbody]; decide⟩
  | _ => exact absurd hreceived (by simp [Received.body?])

end Worker
end BareHttp
