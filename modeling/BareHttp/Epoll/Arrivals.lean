import BareHttp.Epoll.Answer
import BareHttp.Epoll.Segmentation

/-!
# Pieces as they arrive at an epoll client

The client branch asks `recv` for `MAX_BUFFR - rq_size` bytes.  What it gets depends
on what has arrived and on how much it asked for, so the results of `recv` on a
connection are computed here from the pieces that arrive and the state of the client.
A client that has sent everything closes.

In the body state `rq_size` counts every piece twice unless the piece completes the
request.  `bodyFate` follows that counter over the lengths of the pieces alone, and
`readPieces_readingBody` says that it tells what becomes of the client.
-/

namespace BareHttp
namespace Epoll

/-- What becomes of a client to which `pieces` arrive.  Every `recv` but the last takes
at least one byte, so `fuel` is more than the number of bytes. -/
def readPieces : ℕ → ClientData → List Bytes → ClientOutcome
  | 0, cd, _ => .keep cd
  | _ + 1, cd, [] => clientIo cd .closed
  | fuel + 1, cd, p :: ps =>
    let bytes := p.take (CInt.toSizeT cd.recvLen)
    match clientIo cd (if bytes = [] then .closed else .data bytes) with
    | .keep cd' => readPieces fuel cd' (Buffer.leftover (CInt.toSizeT cd.recvLen) p ps)
    | .close cause => .close cause
    | .dispatch rq => .dispatch rq
    | .corrupt => .corrupt

theorem readPieces_of_keep {fuel room : ℕ} {cd cd' : ClientData} {p : Bytes} (ps : List Bytes)
    (hroom : CInt.toSizeT cd.recvLen = room) (hne : p.take room ≠ [])
    (hio : clientIo cd (.data (p.take room)) = .keep cd') :
    readPieces (fuel + 1) cd (p :: ps) = readPieces fuel cd' (Buffer.leftover room p ps) := by
  simp only [readPieces, hroom, if_neg hne, hio]

theorem readPieces_of_stop {fuel room : ℕ} {cd : ClientData} {p : Bytes} (ps : List Bytes)
    (hroom : CInt.toSizeT cd.recvLen = room) (hne : p.take room ≠ []) {o : ClientOutcome}
    (hio : clientIo cd (.data (p.take room)) = o) (ho : ∀ cd', o ≠ .keep cd') :
    readPieces (fuel + 1) cd (p :: ps) = o := by
  simp only [readPieces, hroom, if_neg hne, hio]
  cases o with
  | keep cd' => exact absurd rfl (ho cd')
  | close cause => rfl
  | dispatch rq => rfl
  | corrupt => rfl

/-- The same, with the socket calls made for it. -/
def arrive (sc : ServerConf) (fuel : ℕ) (cd : ClientData) (pieces : List Bytes) (w : World) :
    ClientOutcome × World :=
  match readPieces fuel cd pieces with
  | .dispatch rq => (.dispatch rq, (httpProcessRequest sc rq w).2)
  | outcome => (outcome, w)

/-- Pieces that arrive are one of the runs of the client branch. -/
theorem exists_connection_eq_arrive (sc : ServerConf) (fuel : ℕ) (cd : ClientData)
    (pieces : List Bytes) (w : World) :
    ∃ rs, connection sc cd rs w = arrive sc fuel cd pieces w := by
  induction fuel generalizing cd pieces with
  | zero => exact ⟨[], rfl⟩
  | succ fuel ih =>
    cases pieces with
    | nil => exact ⟨[.closed], rfl⟩
    | cons p ps =>
      generalize hr : (if p.take (CInt.toSizeT cd.recvLen) = [] then RecvResult.closed
        else .data (p.take (CInt.toSizeT cd.recvLen))) = r
      cases hio : clientIo cd r with
      | keep cd' =>
        obtain ⟨rs, hrs⟩ := ih cd' (Buffer.leftover (CInt.toSizeT cd.recvLen) p ps)
        refine ⟨r :: rs, ?_⟩
        simp only [connection, hio, hrs, arrive, readPieces, hr]
      | close cause => exact ⟨[r], by simp only [connection, arrive, readPieces, hr, hio]⟩
      | dispatch rq => exact ⟨[r], by simp only [connection, arrive, readPieces, hr, hio]⟩
      | corrupt => exact ⟨[r], by simp only [connection, arrive, readPieces, hr, hio]⟩

/-- A client that is closed without a dispatch was sent nothing. -/
theorem sent_arrive_of_close {sc : ServerConf} {fuel : ℕ} {cd : ClientData} {pieces : List Bytes}
    {env : Env} {cause : CloseCause} (h : readPieces fuel cd pieces = .close cause) :
    arrive sc fuel cd pieces ⟨env, []⟩ = (.close cause, ⟨env, []⟩) := by
  simp only [arrive, h]

/-! ## The body state -/

/-- What becomes of a client in the body state. -/
inductive BodyFate where
  | dispatched (level : ℕ)
  | closed
  | corrupted
  deriving DecidableEq

/-- The levels of `rq_size` in the body state, from `level` on, for pieces of these
lengths and a declared length `cl`.  A level above `MAX_BUFFR` makes the length asked
for negative, and the level `MAX_BUFFR` makes it zero. -/
def bodyFate (cl : ℕ) : ℕ → List ℕ → BodyFate
  | _, [] => .closed
  | level, n :: ns =>
    if maxBuffr < level then .corrupted
    else if level = maxBuffr then .closed
    else if maxBuffr < level + n then
      if 2 * cl ≤ maxBuffr then .dispatched maxBuffr else .corrupted
    else if 2 * cl ≤ level + n then .dispatched (level + n)
    else bodyFate cl (level + n + n) ns

/-- The client waits for a body of `cl` bytes, and `rq` was parsed before it. -/
structure ReadingBody (level : ℕ) (cl : Int) (rq : HttpRequest) (cd : ClientData) : Prop where
  state_eq : cd.state = .readingBody
  rqSize_eq : cd.rqSize = level
  bodyLen_eq : cd.bodyLen = cl
  httpRq_eq : cd.httpRq = rq
  headerLen_eq : cd.headerLen = 0
  zero_above : ∀ i, level ≤ i → cd.rq i = 0

/-- The request as it is dispatched at a level: the body it is given starts where
nothing was written. -/
def dispatchedAt (rq : HttpRequest) (level : ℕ) : HttpRequest :=
  { rq with
    body := ⟨level, if level + level ≤ maxBuffr then some (List.replicate level 0) else none⟩ }

/-- **One more piece of the body.** -/
theorem clientIo_readingBody {level : ℕ} {cl : Int} {rq : HttpRequest} {cd : ClientData}
    (hb : ReadingBody level cl rq cd) {bytes : Bytes} (hfit : level + bytes.length ≤ maxBuffr) :
    (bodyCompleted (level + bytes.length) cl = true ∧
      clientIo cd (.data bytes) = .dispatch (dispatchedAt rq (level + bytes.length))) ∨
    (bodyCompleted (level + bytes.length) cl = false ∧
      ∃ cd', clientIo cd (.data bytes) = .keep cd' ∧
        ReadingBody (level + bytes.length + bytes.length) cl rq cd') := by
  have hnot : ¬ maxBuffr < level + bytes.length := by omega
  have habove : ∀ i, level + bytes.length ≤ i → Buffer.write cd.rq level bytes i = 0 := by
    intro i hi
    rw [Buffer.write_of_ge _ _ hi]
    exact hb.zero_above i (by omega)
  simp only [clientIo, hb.state_eq, readBody, hb.rqSize_eq, hb.bodyLen_eq, if_neg hnot]
  cases hdone : bodyCompleted (level + bytes.length) cl with
  | true =>
    refine Or.inl ⟨rfl, ?_⟩
    have hroom : (0 ≤ ((level + bytes.length : ℕ) : Int) ∧
        ((level + bytes.length : ℕ) : Int) + (level + bytes.length : ℕ) ≤ maxBuffr) ↔
        level + bytes.length + (level + bytes.length) ≤ maxBuffr := by
      omega
    simp only [if_true, httpAddBody, dispatchedAt, hb.httpRq_eq, hb.headerLen_eq, Int.sub_zero,
      hroom, Int.toNat_natCast, Buffer.slice_eq_replicate habove]
  | false =>
    refine Or.inr ⟨rfl, ?_⟩
    simp only [Bool.false_eq_true, if_false]
    refine ⟨_, rfl, ?_⟩
    exact
      { state_eq := rfl
        rqSize_eq := rfl
        bodyLen_eq := rfl
        httpRq_eq := hb.httpRq_eq
        headerLen_eq := hb.headerLen_eq
        zero_above := fun i hi => habove i (by omega) }

/-- For a declared length that fits, the test asks for twice that length. -/
theorem bodyCompleted_eq {n cl : ℕ} (hcl : cl ≤ maxBuffr) (hn : n ≤ maxBuffr) :
    bodyCompleted n cl = decide (2 * cl ≤ n) := by
  have hint : CInt.toInt32 ((n : Int) - cl) = n - cl := by
    rw [maxBuffr_eq] at hcl hn
    exact CInt.toInt32_of_mem (by omega) (by omega)
  unfold bodyCompleted
  rw [hint]
  exact decide_eq_decide.2 (by omega)

/-- Above `MAX_BUFFR` the next piece is stored outside the buffer. -/
theorem readPieces_of_above {cd : ClientData} (hlo : maxBuffr < cd.rqSize)
    (hhi : cd.rqSize ≤ 2 * maxBuffr) {p : Bytes} (hp : p ≠ []) (fuel : ℕ) (ps : List Bytes) :
    readPieces (fuel + 1) cd (p :: ps) = .corrupt := by
  have hpos := List.length_pos_iff.2 hp
  have hroom : 0 < CInt.toSizeT cd.recvLen := by
    rw [maxBuffr_eq] at hlo hhi
    unfold CInt.toSizeT ClientData.recvLen
    rw [maxBuffr_eq]
    omega
  have hne : p.take (CInt.toSizeT cd.recvLen) ≠ [] := by
    rw [← List.length_pos_iff, List.length_take]
    omega
  have hover : maxBuffr < cd.rqSize + (p.take (CInt.toSizeT cd.recvLen)).length := by omega
  simp only [readPieces, if_neg hne, clientIo, if_pos hover]

/-- The outcome a fate stands for. -/
def BodyFate.outcome (rq : HttpRequest) : BodyFate → ClientOutcome
  | .dispatched level => .dispatch (dispatchedAt rq level)
  | .closed => .close .byPeer
  | .corrupted => .corrupt

/-- **In the body state the lengths decide.** -/
theorem readPieces_readingBody {cl : ℕ} {rq : HttpRequest} (hcl : cl ≤ maxBuffr)
    {pieces : List Bytes} (hne : ∀ p ∈ pieces, p ≠ []) {level fuel : ℕ} {cd : ClientData}
    (hb : ReadingBody level cl rq cd) (hlevel : level ≤ 2 * maxBuffr)
    (hfuel : pieces.flatten.length < fuel) :
    readPieces fuel cd pieces = (bodyFate cl level (pieces.map List.length)).outcome rq := by
  induction pieces generalizing level fuel cd with
  | nil =>
    obtain ⟨fuel, rfl⟩ : ∃ f, fuel = f + 1 := ⟨fuel - 1, by omega⟩
    rfl
  | cons p ps ih =>
    obtain ⟨fuel, rfl⟩ : ∃ f, fuel = f + 1 := ⟨fuel - 1, by omega⟩
    have hp := hne p (by simp)
    have hpos := List.length_pos_iff.2 hp
    rw [List.flatten_cons, List.length_append] at hfuel
    simp only [List.map_cons, bodyFate]
    by_cases habove : maxBuffr < level
    · rw [if_pos habove]
      exact readPieces_of_above (by rw [hb.rqSize_eq]; exact habove)
        (by rw [hb.rqSize_eq]; exact hlevel) hp fuel ps
    · rw [if_neg habove]
      have hroom : CInt.toSizeT cd.recvLen = maxBuffr - level := by
        rw [toSizeT_recvLen (by rw [hb.rqSize_eq]; omega), hb.rqSize_eq]
      by_cases hfull : level = maxBuffr
      · rw [if_pos hfull]
        simp only [readPieces, hroom, hfull, Nat.sub_self, List.take_zero, if_true]
        rfl
      · rw [if_neg hfull]
        have hbytes : p.take (maxBuffr - level) ≠ [] := by
          rw [← List.length_pos_iff, List.length_take]
          omega
        by_cases hlong : maxBuffr < level + p.length
        · -- only a part of the piece fits, and it fills the buffer
          rw [if_pos hlong]
          have hlen : level + (p.take (maxBuffr - level)).length = maxBuffr := by
            rw [List.length_take]
            omega
          rcases clientIo_readingBody hb (Nat.le_of_eq hlen) with
            ⟨hle, hio⟩ | ⟨hlt, cd', hio, hb'⟩
          · rw [hlen] at hle hio
            rw [bodyCompleted_eq hcl (Nat.le_refl _), decide_eq_true_eq] at hle
            rw [if_pos hle, readPieces_of_stop ps hroom hbytes hio (by simp)]
            rfl
          · rw [hlen] at hlt hb'
            rw [bodyCompleted_eq hcl (Nat.le_refl _), decide_eq_false_iff_not] at hlt
            have hdrop : p.drop (maxBuffr - level) ≠ [] := by
              rw [← List.length_pos_iff, List.length_drop]
              omega
            obtain ⟨fuel, rfl⟩ : ∃ f, fuel = f + 1 := ⟨fuel - 1, by omega⟩
            have hleft : Buffer.leftover (maxBuffr - level) p ps =
                p.drop (maxBuffr - level) :: ps := by
              unfold Buffer.leftover
              rw [if_neg (by omega)]
            rw [if_neg hlt, readPieces_of_keep ps hroom hbytes hio, hleft]
            exact readPieces_of_above (by rw [hb'.rqSize_eq]; omega)
              (by rw [hb'.rqSize_eq]; omega) hdrop fuel ps
        · rw [if_neg hlong]
          have hall : p.take (maxBuffr - level) = p := List.take_of_length_le (by omega)
          have hleft : Buffer.leftover (maxBuffr - level) p ps = ps := by
            unfold Buffer.leftover
            rw [if_pos (by omega)]
          rcases clientIo_readingBody hb (Nat.not_lt.1 hlong) with
            ⟨hle, hio⟩ | ⟨hlt, cd', hio, hb'⟩
          · rw [bodyCompleted_eq hcl (Nat.not_lt.1 hlong), decide_eq_true_eq] at hle
            rw [← hall] at hio
            rw [if_pos hle, readPieces_of_stop ps hroom hbytes hio (by simp), hall]
            rfl
          · rw [bodyCompleted_eq hcl (Nat.not_lt.1 hlong), decide_eq_false_iff_not] at hlt
            rw [← hall] at hio
            rw [if_neg hlt, readPieces_of_keep ps hroom hbytes hio, hleft]
            exact ih (fun q hq => hne q (by simp [hq])) hb' (by omega) (by omega)

/-- A request dispatched from the body state has a body longer than everything read
before. -/
theorem length_lt_of_dispatch {level fuel : ℕ} {cl : Int} {rq rq' : HttpRequest}
    {cd : ClientData} (hb : ReadingBody level cl rq cd) {pieces : List Bytes}
    (h : readPieces fuel cd pieces = .dispatch rq') {bs : Bytes}
    (hbs : rq'.body.bytes = some bs) : level < bs.length := by
  induction fuel generalizing level cd pieces with
  | zero => exact absurd h (by simp [readPieces])
  | succ fuel ih =>
    cases pieces with
    | nil => exact absurd h (by simp [readPieces, clientIo])
    | cons p ps =>
      by_cases hnil : p.take (CInt.toSizeT cd.recvLen) = []
      · exact absurd h (by simp [readPieces, hnil, clientIo])
      · have hpos := List.length_pos_iff.2 hnil
        by_cases hfit : level + (p.take (CInt.toSizeT cd.recvLen)).length ≤ maxBuffr
        · rcases clientIo_readingBody hb hfit with ⟨-, hio⟩ | ⟨-, cd', hio, hb'⟩
          · rw [readPieces_of_stop ps rfl hnil hio (by simp)] at h
            obtain rfl := ClientOutcome.dispatch.inj h
            simp only [dispatchedAt] at hbs
            split_ifs at hbs
            rw [← Option.some.inj hbs, List.length_replicate]
            omega
          · rw [readPieces_of_keep ps rfl hnil hio] at h
            have := ih hb' h
            omega
        · have hio : clientIo cd (.data (p.take (CInt.toSizeT cd.recvLen))) = .corrupt := by
            simp only [clientIo]
            rw [if_pos (by rw [hb.rqSize_eq]; omega)]
          rw [readPieces_of_stop ps rfl hnil hio (by simp)] at h
          exact absurd h (by simp)

end Epoll
end BareHttp
