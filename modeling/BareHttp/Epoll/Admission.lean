import BareHttp.Epoll.Client

/-!
# Admitting a body

When the header block of a request is complete, the epoll server decides from the declared
length what to do with the client: it closes it if the request is too long, answers it if
there is no body, and otherwise keeps it and reads the body.  The last branch is taken for
every length that the other two do not want.

The length is any `int`.  A negative one is neither too long nor zero, so the body of a
request that declares one is read.  A length close to `INT_MAX` overflows in the test, which
adds what has been received before it compares; the sum is negative on the machines the
server runs on, and the request is not too long.  `admitted_iff` says that these two are all.
-/

namespace BareHttp
namespace Epoll

/-- The sum in the test for a request that is too long is an `int`. -/
def SumFits (bodyLen : Int) (rqSize : ℕ) : Prop :=
  -2147483648 ≤ bodyLen + rqSize ∧ bodyLen + rqSize < 2147483648

/-- **A body is admitted only if it fits**: the test does not overflow, and a client whose body
is to be read has one of at least a byte, which ends inside the buffer with its header
block of `headerLen` bytes. -/
def Admitted (cd : ClientData) (bytes : Bytes) (headerLen : ℕ) (rq : HttpRequest) : Prop :=
  SumFits (httpGetContentLength rq) (cd.rqSize + bytes.length) ∧
    ∀ cd', clientIo cd (.data bytes) = .keep cd' → cd'.state = .readingBody →
      0 < cd'.bodyLen ∧ headerLen + cd'.bodyLen ≤ maxBuffr

/-- The parse of what a client has sent, with `bytes` behind it. -/
def parseWith (cd : ClientData) (bytes : Bytes) : ParseAnswer × HttpRequest :=
  httpParseRequest (Buffer.slice (Buffer.write cd.rq cd.rqSize bytes) 0 (cd.rqSize + bytes.length))
    cd.httpRq cd.rqSize

/-- A header block is not longer than what was received. -/
theorem headerLen_le {cd : ClientData} {bytes : Bytes} {headerLen : ℕ} {rq : HttpRequest}
    (h : parseWith cd bytes = (.parsed headerLen, rq)) : headerLen ≤ cd.rqSize + bytes.length := by
  have hle := (httpParseRequest_mem h).2
  rwa [Buffer.length_slice] at hle

/-- **The three branches behind a complete header block.** -/
theorem clientIo_of_parsed {cd : ClientData} {bytes : Bytes} {headerLen : ℕ} {rq : HttpRequest}
    (hstate : cd.state = .readingHeaders) (hfit : cd.rqSize + bytes.length ≤ maxBuffr)
    (h : parseWith cd bytes = (.parsed headerLen, rq)) :
    clientIo cd (.data bytes) =
      if tooLong (httpGetContentLength rq) (cd.rqSize + bytes.length) then .close .tooLongBody
      else if httpGetContentLength rq = 0 then .dispatch rq
      else .keep
        { cd with
          state := .readingBody
          rq := Buffer.write cd.rq cd.rqSize bytes
          lastLen := cd.rqSize
          rqSize := cd.rqSize + bytes.length
          httpRq := rq
          bodyLen := httpGetContentLength rq } := by
  have hroom : ¬ maxBuffr < cd.rqSize + bytes.length := by omega
  unfold parseWith at h
  simp only [clientIo, if_neg hroom, hstate, readHeaders, ClientData.received, h]

/-- **Exactly which lengths are admitted as they should be**: those that are not negative and
do not overflow the test. -/
theorem admitted_iff {cd : ClientData} {bytes : Bytes} {headerLen : ℕ} {rq : HttpRequest}
    (hstate : cd.state = .readingHeaders) (hfit : cd.rqSize + bytes.length ≤ maxBuffr)
    (h : parseWith cd bytes = (.parsed headerLen, rq)) :
    Admitted cd bytes headerLen rq ↔
      0 ≤ httpGetContentLength rq ∧
        httpGetContentLength rq + (cd.rqSize + bytes.length : ℕ) ≤ 2147483647 := by
  have hle := headerLen_le h
  have hio := clientIo_of_parsed hstate hfit h
  obtain ⟨hlo, hhi⟩ := httpGetContentLength_mem rq
  rw [maxBuffr_eq] at hfit
  constructor
  · rintro ⟨⟨-, hsum⟩, hkept⟩
    refine ⟨?_, by omega⟩
    by_contra hneg
    have hshort : tooLong (httpGetContentLength rq) (cd.rqSize + bytes.length) = false := by
      rw [tooLong, CInt.toInt32_of_mem (by omega) (by omega), maxBuffr_eq]
      simp only [decide_eq_false_iff_not]
      omega
    rw [hshort, if_neg (by simp), if_neg (by omega)] at hio
    have hpos := (hkept _ hio rfl).1
    exact hneg (Int.le_of_lt hpos)
  · rintro ⟨hnonneg, hsum⟩
    refine ⟨⟨by omega, by omega⟩, fun cd' hkeep hbody => ?_⟩
    rw [hio] at hkeep
    split_ifs at hkeep with hlong hzero
    obtain rfl := ClientOutcome.keep.inj hkeep
    rw [tooLong, CInt.toInt32_of_mem (by omega) (by omega), maxBuffr_eq,
      decide_eq_true_eq] at hlong
    rw [maxBuffr_eq]
    simp only
    omega

/-- A request that declares a body, as a client sends it at once. -/
def declaring (length : Bytes) : Bytes :=
  ascii "POST / HTTP/1.0\r\nContent-Length: " ++ length ++ ascii "\r\n\r\n"

/-- A parse is given by its answer and the length it finds. -/
theorem exists_parsed {cd : ClientData} {bytes : Bytes} {headerLen : ℕ} {bodyLen : Int}
    (h : (parseWith cd bytes).1 = .parsed headerLen ∧
      httpGetContentLength (parseWith cd bytes).2 = bodyLen) :
    ∃ rq, parseWith cd bytes = (.parsed headerLen, rq) ∧ httpGetContentLength rq = bodyLen :=
  ⟨_, Prod.ext h.1 rfl, h.2⟩

/-- A body of five bytes. -/
theorem five_admitted : ∃ headerLen rq,
    parseWith (newClient 7) (declaring (ascii "5")) = (.parsed headerLen, rq) ∧
      httpGetContentLength rq = 5 ∧
      Admitted (newClient 7) (declaring (ascii "5")) headerLen rq := by
  have hsize : (newClient 7).rqSize + (declaring (ascii "5")).length = 38 := by decide +kernel
  obtain ⟨rq, hparse, hlen⟩ : ∃ rq, parseWith (newClient 7) (declaring (ascii "5")) =
      (.parsed 38, rq) ∧ httpGetContentLength rq = 5 := exists_parsed (by decide +kernel)
  refine ⟨38, rq, hparse, hlen, (admitted_iff rfl (by rw [hsize]; decide) hparse).mpr ?_⟩
  rw [hlen, hsize]
  exact ⟨by decide, by decide⟩

/-- **A negative length and `INT_MAX`.**  The first client is kept to read a body; the sum for
the second is not an `int`. -/
theorem extremes_not_admitted :
    (∃ headerLen rq, parseWith (newClient 7) (declaring (ascii "-5")) = (.parsed headerLen, rq) ∧
      httpGetContentLength rq = -5 ∧
      ¬ Admitted (newClient 7) (declaring (ascii "-5")) headerLen rq) ∧
    (∃ headerLen rq,
      parseWith (newClient 7) (declaring (ascii "2147483647")) = (.parsed headerLen, rq) ∧
        httpGetContentLength rq = 2147483647 ∧
        ¬ SumFits (httpGetContentLength rq)
          ((newClient 7).rqSize + (declaring (ascii "2147483647")).length) ∧
        ¬ Admitted (newClient 7) (declaring (ascii "2147483647")) headerLen rq) := by
  constructor
  · have hsize : (newClient 7).rqSize + (declaring (ascii "-5")).length = 39 := by decide +kernel
    obtain ⟨rq, hparse, hlen⟩ : ∃ rq, parseWith (newClient 7) (declaring (ascii "-5")) =
        (.parsed 39, rq) ∧ httpGetContentLength rq = -5 := exists_parsed (by decide +kernel)
    refine ⟨39, rq, hparse, hlen, fun h => ?_⟩
    have hio := clientIo_of_parsed rfl (by rw [hsize]; decide) hparse
    have hshort : tooLong (-5) 39 = false := by decide
    rw [hlen, hsize, hshort, if_neg (by simp), if_neg (by decide)] at hio
    have hpos : (0 : Int) < -5 := (h.2 _ hio rfl).1
    exact absurd hpos (by decide)
  · have hsize : (newClient 7).rqSize + (declaring (ascii "2147483647")).length = 47 := by
      decide +kernel
    obtain ⟨rq, hparse, hlen⟩ : ∃ rq, parseWith (newClient 7) (declaring (ascii "2147483647")) =
        (.parsed 47, rq) ∧ httpGetContentLength rq = 2147483647 :=
      exists_parsed (by decide +kernel)
    have hsum : ¬ SumFits (httpGetContentLength rq)
        ((newClient 7).rqSize + (declaring (ascii "2147483647")).length) := by
      rw [hlen, hsize]
      exact fun h => absurd h.2 (by decide)
    exact ⟨47, rq, hparse, hlen, hsum, fun h => hsum h.1⟩

end Epoll
end BareHttp
