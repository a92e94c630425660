import BareHttp.Parser.HeaderLimit
import BareHttp.Worker.Connection

/-!
# Reading a request that fits

What the two loops of a worker do with a stream that starts with a header block the
parser accepts as a whole.  The header loop stops with the first piece that brings the
end of the block, whatever the cut, and the body loop stops as soon as the declared
length is there.  The statements are about any buffer that holds a proper part of the
block, so that they can be proved by induction on the pieces; a worker that starts
with an empty buffer is the case of interest.
-/

namespace BareHttp
namespace Worker

open Pico

/-- Two parts from the front of one list, the first one not longer. -/
theorem exists_append_of_prefixes {a b s : Bytes} (ha : a <+: s) (hb : b <+: s)
    (hlen : a.length ≤ b.length) : ∃ x, b = a ++ x := by
  obtain ⟨x, hx⟩ := List.prefix_of_prefix_length_le ha hb hlen
  exact ⟨x, hx.symm⟩

/-- **One more piece of an accepted header block.**  The parse with the previous length
as `last_len` is incomplete before the end of the block and finds the block
afterwards. -/
theorem httpParseRequest_of_block (rq : HttpRequest) (acc bytes : Bytes) {h : Bytes} {r : Parsed}
    (hparse : parseRequest maxHeaders maxHeaders h = .done r []) (hacc : acc.length < h.length) :
    (∀ x, x ≠ [] → acc ++ bytes ++ x = h →
      httpParseRequest (acc ++ bytes) rq acc.length = (.incomplete, rq.cleared)) ∧
    (∀ y, acc ++ bytes = h ++ y →
      httpParseRequest (acc ++ bytes) rq acc.length = (.parsed h.length, rq.filled r)) := by
  unfold httpParseRequest
  constructor
  · intro x hx hsplit
    have hcut : phrParseRequest maxHeaders maxHeaders acc.length (acc ++ bytes) = .incomplete :=
      phrParseRequest_cut (by rw [hsplit]; exact hparse) hx
    rw [phrParseRequest_of_right rq.le_headerLimit hcut (by simp)]
  · intro y hy
    have hdone : parseRequest maxHeaders maxHeaders (acc ++ bytes) = .done r y := by
      rw [hy]
      exact (stable_parseRequest maxHeaders maxHeaders).done hparse y
    have hlen : (acc ++ bytes).length = h.length + y.length := by rw [hy, List.length_append]
    have hwhole : phrParseRequest maxHeaders maxHeaders acc.length (acc ++ bytes) = .done r y :=
      phrParseRequest_whole hdone (by rw [hlen]; omega)
    rw [phrParseRequest_of_right rq.le_headerLimit hwhole (by simp)]
    simp only [hlen, Nat.add_sub_cancel]

/-- What the header loop leaves behind an accepted block. -/
structure BlockRead (h : Bytes) (r : Parsed) (st st' : State) (pieces rest : List Bytes) :
    Prop where
  block_prefix : h <+: st'.buff
  stream_eq : st'.buff ++ rest.flatten = st.buff ++ pieces.flatten
  length_le : st'.buff.length ≤ maxBuffr
  rest_ne : ∀ p ∈ rest, p ≠ []
  request_eq : ∃ b, st'.request = { HttpRequest.zeroed.filled r with body := b }

/-- **The header loop on an accepted block** reads until the block is there. -/
theorem readHeader_eq_fill (ending : Ending) {h : Bytes} {r : Parsed}
    (hparse : parseRequest maxHeaders maxHeaders h = .done r []) (hfit : h.length ≤ maxBuffr)
    {pieces : List Bytes} (hne : ∀ p ∈ pieces, p ≠ []) {st : State}
    (hshort : st.buff.length < h.length) (hstream : h <+: st.buff ++ pieces.flatten) :
    ∃ st', readHeader ending st pieces =
        .block h.length st' (Buffer.fill maxBuffr h.length st.buff pieces).2 ∧
      st'.buff = (Buffer.fill maxBuffr h.length st.buff pieces).1 ∧
      ∃ b, st'.request = { HttpRequest.zeroed.filled r with body := b } := by
  induction pieces generalizing st with
  | nil =>
    have := hstream.length_le
    rw [List.flatten_nil, List.append_nil] at this
    omega
  | cons p ps ih =>
    have hp : p.length ≠ 0 := fun h0 => hne p (by simp) (List.eq_nil_of_length_eq_zero h0)
    have hbytes : ¬ p.take (maxBuffr - st.buff.length) = [] := by
      intro h0
      have hzero := congrArg List.length h0
      rw [List.length_take, List.length_nil] at hzero
      omega
    have hacc : st.buff ++ p.take (maxBuffr - st.buff.length) <+:
        st.buff ++ (p :: ps).flatten := by
      rw [List.flatten_cons]
      exact List.prefix_append_right_inj st.buff |>.2
        ((List.take_prefix _ _).trans (List.prefix_append _ _))
    have hdone : ¬ h.length ≤ st.buff.length := by omega
    obtain ⟨hcut, hwhole⟩ := httpParseRequest_of_block st.request st.buff
      (p.take (maxBuffr - st.buff.length)) hparse hshort
    simp only [readHeader, if_neg hbytes, Buffer.fill, if_neg hdone]
    by_cases hlt : (st.buff ++ p.take (maxBuffr - st.buff.length)).length < h.length
    · -- the block is not there yet, so the buffer is not full and the piece was read whole
      obtain ⟨x, hx⟩ := exists_append_of_prefixes hacc hstream (Nat.le_of_lt hlt)
      have hx0 : x ≠ [] := by
        rintro rfl
        rw [hx, List.append_nil] at hlt
        exact Nat.lt_irrefl _ hlt
      have hroom : p.length ≤ maxBuffr - st.buff.length := by
        rw [List.length_append, List.length_take] at hlt
        omega
      have hall : p.take (maxBuffr - st.buff.length) = p := List.take_of_length_le hroom
      simp only [hcut x hx0 hx.symm, if_pos hroom]
      rw [if_neg (by omega), hall]
      rw [hall] at hlt
      have hassoc : st.buff ++ p ++ ps.flatten = st.buff ++ (p :: ps).flatten := by
        rw [List.flatten_cons, List.append_assoc]
      exact @ih (fun q hq => hne q (by simp [hq]))
        ⟨st.buff ++ p, st.buff.length, st.request.cleared⟩ hlt (by rw [hassoc]; exact hstream)
    · obtain ⟨y, hy⟩ := exists_append_of_prefixes hstream hacc (Nat.not_lt.1 hlt)
      simp only [hwhole y hy, Buffer.leftover]
      split_ifs with hroom
      · rw [List.take_of_length_le hroom] at hlt ⊢
        rw [Buffer.fill_of_le (Nat.not_lt.1 hlt)]
        exact ⟨_, rfl, rfl, _, rfl⟩
      · exact ⟨_, rfl, rfl, _, rfl⟩

theorem readHeader_of_block (ending : Ending) {h : Bytes} {r : Parsed}
    (hparse : parseRequest maxHeaders maxHeaders h = .done r []) (hfit : h.length ≤ maxBuffr)
    {pieces : List Bytes} (hne : ∀ p ∈ pieces, p ≠ []) {st : State}
    (hshort : st.buff.length < h.length) (hstream : h <+: st.buff ++ pieces.flatten) :
    ∃ st' rest, readHeader ending st pieces = .block h.length st' rest ∧
      BlockRead h r st st' pieces rest := by
  obtain ⟨st', hread, hbuff, hrequest⟩ := readHeader_eq_fill ending hparse hfit hne hshort hstream
  have happend := @Buffer.fill_append _ maxBuffr h.length st.buff pieces
  rw [← hbuff] at happend
  have hprefix : st'.buff <+: st.buff ++ pieces.flatten := ⟨_, happend⟩
  refine ⟨st', _, hread, ?_, happend, ?_, fun q => Buffer.ne_nil_of_mem_fill hne, hrequest⟩
  · refine List.prefix_of_prefix_length_le hstream hprefix ?_
    rw [hbuff]
    exact Buffer.le_length_fill hfit hstream.length_le
  · rw [hbuff]
    exact Buffer.length_fill_le (by omega)

/-- **The body loop on a body that fits.** -/
theorem readBody_of_fits (ending : Ending) (headerSize : ℕ) (expectedLen : Int)
    {pieces : List Bytes} (hne : ∀ p ∈ pieces, p ≠ []) {st : State}
    (hfit : headerSize + expectedLen ≤ maxBuffr)
    (hstream : headerSize + expectedLen ≤ (st.buff ++ pieces.flatten).length) :
    ∃ buff, readBody ending headerSize expectedLen st pieces =
      (none, { st with buff := buff }) := by
  induction pieces generalizing st with
  | nil =>
    rw [List.flatten_nil, List.append_nil] at hstream
    exact ⟨st.buff, by simp only [readBody]; rw [if_neg (by omega)]⟩
  | cons p ps ih =>
    simp only [readBody]
    split_ifs with hmore hnil
    · have hp : p.length ≠ 0 := fun h0 => hne p (by simp) (List.eq_nil_of_length_eq_zero h0)
      have h0 := congrArg List.length hnil
      rw [List.length_take, List.length_nil] at h0
      omega
    · have hnext : headerSize + expectedLen ≤
          (st.buff ++ p.take (maxBuffr - st.buff.length) ++ ps.flatten).length := by
        simp only [List.length_append, List.length_take, List.flatten_cons] at hstream ⊢
        omega
      exact @ih (fun q hq => hne q (by simp [hq]))
        { st with buff := st.buff ++ p.take (maxBuffr - st.buff.length) } hnext
    · exact ⟨st.buff, rfl⟩

/-- A body that is there already. -/
theorem readBody_of_le (ending : Ending) {headerSize : ℕ} {expectedLen : Int} {st : State}
    (h : ¬ (st.buff.length : Int) - headerSize < expectedLen) (pieces : List Bytes) :
    readBody ending headerSize expectedLen st pieces = (none, st) := by
  cases pieces with
  | nil => simp only [readBody, if_neg h]
  | cons p ps => simp only [readBody, if_neg h]

/-- A body that is there has arrived. -/
theorem le_of_readBody_eq_none {ending : Ending} {headerSize : ℕ} {expectedLen : Int}
    {pieces : List Bytes} {st st' : State}
    (h : readBody ending headerSize expectedLen st pieces = (none, st')) :
    headerSize + expectedLen ≤ (st.buff ++ pieces.flatten).length := by
  induction pieces generalizing st with
  | nil =>
    simp only [readBody] at h
    split_ifs at h with hmore
    · exact absurd h (by simp)
    · rw [List.flatten_nil, List.append_nil]
      omega
  | cons p ps ih =>
    simp only [readBody] at h
    split_ifs at h with hmore hnil
    · exact absurd h (by simp)
    · have hle := ih h
      simp only [List.length_append, List.length_take, List.flatten_cons] at hle ⊢
      omega
    · rw [List.length_append]
      omega

/-- When the peer closes, that is the only way the body loop ends early. -/
theorem readBody_closed (headerSize : ℕ) (expectedLen : Int) (pieces : List Bytes) (st : State) :
    (readBody .closed headerSize expectedLen st pieces).1 = none ∨
      (readBody .closed headerSize expectedLen st pieces).1 = some .closed := by
  induction pieces generalizing st with
  | nil =>
    simp only [readBody]
    split_ifs
    · exact Or.inr rfl
    · exact Or.inl rfl
  | cons p ps ih =>
    simp only [readBody]
    split_ifs
    · exact Or.inr rfl
    · exact ih _
    · exact Or.inl rfl

/-- When the peer closes, the header loop ends early in that way or because of what it
has read. -/
theorem readHeader_closed {pieces : List Bytes} {st st' : State} {received : Received}
    (h : readHeader .closed st pieces = .stop received st') :
    received = .closed ∨ received = .rejected ∨ received = .overrun := by
  induction pieces generalizing st with
  | nil => exact Or.inl (HeaderRead.stop.inj h).1.symm
  | cons p ps ih =>
    simp only [readHeader] at h
    by_cases hnil : p.take (maxBuffr - st.buff.length) = []
    · rw [if_pos hnil] at h
      exact Or.inl (HeaderRead.stop.inj h).1.symm
    · rw [if_neg hnil] at h
      split at h
      · exact Or.inr (Or.inl (HeaderRead.stop.inj h).1.symm)
      · split_ifs at h
        · exact Or.inr (Or.inl (HeaderRead.stop.inj h).1.symm)
        · exact ih h
      · exact Or.inr (Or.inr (HeaderRead.stop.inj h).1.symm)
      · exact absurd h (by simp)

/-- The first bytes of a stream form a request that fits the buffer: a header block
the parser accepts as a whole, and behind it at least the bytes it declares. -/
structure Fits (stream h : Bytes) (rq : HttpRequest) : Prop where
  parsed : httpParseRequest h .zeroed 0 = (.parsed h.length, rq)
  block_prefix : h <+: stream
  length_le : h.length ≤ maxBuffr
  fits : h.length + httpGetContentLength rq ≤ maxBuffr
  arrives : h.length + httpGetContentLength rq ≤ stream.length

/-- **A request that fits is read**, whatever the cut and the end of the connection. -/
theorem receive_of_fits {st : State} (hbuff : st.buff = []) {pieces : List Bytes}
    (hne : ∀ p ∈ pieces, p ≠ []) (ending : Ending) {h : Bytes}
    {rq : HttpRequest} (hfits : Fits pieces.flatten h rq) :
    ∃ rq' st', receive st pieces ending = (.complete rq', st') ∧ rq'.method = rq.method ∧
      rq'.url = rq.url ∧ rq'.headers = rq.headers ∧ st'.request.headersPad = 0 := by
  obtain ⟨r, hparse, hrq⟩ := parseRequest_of_httpParseRequest hfits.parsed
  have hpos : 0 < h.length := by
    rcases Nat.eq_zero_or_pos h.length with h0 | h0
    · rw [List.eq_nil_of_length_eq_zero h0] at hparse
      exact absurd (isCompleteLoop_of_parseRequest hparse) (by simp [isCompleteLoop])
    · exact h0
  obtain ⟨st', rest, hread, hblock⟩ := readHeader_of_block ending hparse hfits.length_le hne
    (by rw [hbuff]; exact hpos) (by rw [hbuff]; exact hfits.block_prefix)
  obtain ⟨b, hreq⟩ := hblock.request_eq
  rw [← hrq] at hreq
  have hcl : httpGetContentLength st'.request = httpGetContentLength rq := by
    rw [hreq]
    rfl
  have hfit := hfits.fits
  have hstream : h.length + httpGetContentLength rq ≤ (st'.buff ++ rest.flatten).length := by
    rw [hblock.stream_eq, hbuff]
    exact hfits.arrives
  obtain ⟨buff, hbody⟩ := readBody_of_fits ending h.length (httpGetContentLength rq)
    hblock.rest_ne hfit hstream
  have hnot : ¬ ((maxBuffr : Int) - h.length < httpGetContentLength rq) := by omega
  refine ⟨{ st'.request with body := ⟨(buff.drop h.length).length, some (buff.drop h.length)⟩ },
    { st' with buff := buff }, ?_, ?_, ?_, ?_, ?_⟩
  · simp only [receive, hread, hcl, if_neg hnot, hbody]
  · rw [hreq]
  · rw [hreq]
  · rw [hreq]
  · rw [hreq, hrq]
    rfl

end Worker
end BareHttp
