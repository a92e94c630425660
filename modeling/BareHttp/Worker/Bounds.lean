import BareHttp.Foundation.Transition
import BareHttp.Worker.Reading

/-!
# The counters of a worker

`thread_function` in `src/server.c` as far as it moves `buff_len`: one `recv`, one parse and
one answer at a time, over any number of connections.  What the calls return is in the
labels.  A `recv` returns at most the length it was given, which the kernel takes as a
`size_t`; a parse that finds a header block returns a positive count, not above `buff_len`;
`http_get_content_length` returns any `int`.

The buffer is emptied only behind a request that was answered, so a connection may begin with
a `buff_len` that an earlier one left, up to the size of the buffer.  The header loop then
asks for no bytes at all.  The body loop never does (`bounded_of_run`): it runs only while
the body is incomplete, and the body was found to end inside the buffer before it.

`serve_run` connects the counters to the model of a connection.
-/

namespace BareHttp
namespace Worker
namespace Bounds

open Transition

/-- Where a worker stands: between connections, in the header loop, or behind the header block,
in the body loop and what follows it. -/
inductive Phase where
  | waiting
  | header
  | body (headerSize expectedLen : Int)
  deriving DecidableEq

/-- The counters. -/
structure Counters where
  phase : Phase
  buffLen : Int
  lastLen : Int
  deriving DecidableEq

/-- The counters a worker starts with. -/
def Counters.initial : Counters := ⟨.waiting, 0, 0⟩

/-- What happens next.  A `recv` in the header loop carries the answer of the parse behind it
and the declared length; the answer to a request carries its return value. -/
inductive Label where
  | pop
  | recvHeader (bytesRead ret contentLength : Int)
  | recvBody (bytesRead : Int)
  | process (ret : Int)

/-- The length given to the next `tcp_recv`. -/
def Counters.asked (s : Counters) : Int := maxBuffr - s.buffLen

/-- What `tcp_recv` can return. -/
def Counters.Receives (s : Counters) (bytesRead : Int) : Prop :=
  -1 ≤ bytesRead ∧ bytesRead ≤ CInt.toSizeT s.asked

/-- What `http_parse_request` can return for `buff_len` bytes. -/
def Answers (buffLen ret : Int) : Prop := ret = -1 ∨ ret = -2 ∨ (1 ≤ ret ∧ ret ≤ buffLen)

/-- The values of an `int`. -/
def IsInt (z : Int) : Prop := -2147483648 ≤ z ∧ z ≤ 2147483647

instance (s : Counters) (bytesRead : Int) : Decidable (s.Receives bytesRead) :=
  inferInstanceAs (Decidable (_ ∧ _))

instance (buffLen ret : Int) : Decidable (Answers buffLen ret) :=
  inferInstanceAs (Decidable (_ ∨ _))

instance (z : Int) : Decidable (IsInt z) := inferInstanceAs (Decidable (_ ∧ _))

/-- Behind a parse: the connection is given up, the loop goes on, or the header block is there
and its declared length is looked at. -/
def Counters.parsed (s : Counters) (ret contentLength : Int) : Counters :=
  if ret = -1 ∨ (s.buffLen = maxBuffr ∧ ret = -2) then { s with phase := .waiting }
  else if ret = -2 then s
  else if maxBuffr - ret < contentLength then { s with phase := .waiting }
  else { s with phase := .body ret contentLength }

/-- One step. -/
def step (s : Counters) : Label → Option Counters
  | .pop => if s.phase = .waiting then some { s with phase := .header } else none
  | .recvHeader bytesRead ret contentLength =>
    if s.phase = .header ∧ s.Receives bytesRead then
      if bytesRead = 0 ∨ bytesRead = -1 then some { s with phase := .waiting }
      else
        let s : Counters := { s with lastLen := s.buffLen, buffLen := s.buffLen + bytesRead }
        if Answers s.buffLen ret ∧ IsInt contentLength then some (s.parsed ret contentLength)
        else none
    else none
  | .recvBody bytesRead =>
    match s.phase with
    | .body headerSize expectedLen =>
      if s.buffLen - headerSize < expectedLen ∧ s.Receives bytesRead then
        if bytesRead = 0 ∨ bytesRead = -1 then some { s with phase := .waiting }
        else some { s with buffLen := s.buffLen + bytesRead }
      else none
    | _ => none
  | .process ret =>
    match s.phase with
    | .body headerSize expectedLen =>
      if s.buffLen - headerSize < expectedLen then none
      else if ret < 0 then some { s with phase := .waiting }
      else some ⟨.waiting, 0, 0⟩
    | _ => none

/-! ## The bounds -/

/-- `buff_len` stays between zero and the size of the buffer. -/
def Bounded (s : Counters) : Prop := 0 ≤ s.buffLen ∧ s.buffLen ≤ maxBuffr

/-- **What a step may do with the buffer.**  A `recv` writes inside it, and one in the body loop
asks for at least a byte; the body that is handed on lies in what was received. -/
def Safe (s : Counters) : Label → Prop
  | .pop => True
  | .recvHeader _ _ _ => 0 ≤ s.asked ∧ s.buffLen + s.asked ≤ maxBuffr
  | .recvBody _ => 1 ≤ s.asked ∧ s.buffLen + s.asked ≤ maxBuffr
  | .process _ => ∀ headerSize expectedLen, s.phase = .body headerSize expectedLen →
      0 ≤ headerSize ∧ 0 ≤ s.buffLen - headerSize ∧
        headerSize + (s.buffLen - headerSize) ≤ s.buffLen

/-- The bounds, and what the test in front of the body loop has found. -/
structure Inv (s : Counters) : Prop where
  bounded : Bounded s
  body : ∀ headerSize expectedLen, s.phase = .body headerSize expectedLen →
    1 ≤ headerSize ∧ headerSize ≤ s.buffLen ∧ expectedLen ≤ maxBuffr - headerSize

theorem Inv.initial : Inv .initial := ⟨⟨by decide, by decide⟩, by simp [Counters.initial]⟩

/-- A `recv` that keeps the bounds. -/
theorem Bounded.add {s : Counters} (h : Bounded s) {bytesRead : Int} (hr : s.Receives bytesRead)
    (hpos : ¬ (bytesRead = 0 ∨ bytesRead = -1)) :
    1 ≤ bytesRead ∧ s.buffLen + bytesRead ≤ maxBuffr := by
  obtain ⟨hlo, hhi⟩ := h
  obtain ⟨hge, hle⟩ := hr
  have hasked := CInt.toSizeT_of_nonneg (z := s.asked) (by unfold Counters.asked; omega)
    (by unfold Counters.asked; rw [maxBuffr_eq]; omega)
  unfold Counters.asked at hasked
  rw [not_or] at hpos
  unfold Counters.asked at hle
  omega

/-- Behind a parse the header block is part of what was received, and the body ends inside the
buffer. -/
theorem Inv.parsed {s : Counters} (h : Inv s) {ret contentLength : Int}
    (hanswer : Answers s.buffLen ret) : Inv (s.parsed ret contentLength) := by
  unfold Counters.parsed
  split_ifs with hbad hagain hlong
  · exact ⟨h.bounded, by simp⟩
  · exact h
  · exact ⟨h.bounded, by simp⟩
  · refine ⟨h.bounded, fun headerSize expectedLen hphase => ?_⟩
    obtain ⟨rfl, rfl⟩ := Phase.body.inj hphase
    rcases hanswer with hret | hret | ⟨hpos, hle⟩
    · exact absurd (.inl hret) hbad
    · exact absurd hret hagain
    · exact ⟨hpos, hle, by omega⟩

/-- **One step** is safe and keeps the bounds. -/
theorem Inv.step {s s' : Counters} {l : Label} (h : Inv s) (hs : step s l = some s') :
    Safe s l ∧ Inv s' := by
  obtain ⟨hlo, hhi⟩ := h.bounded
  cases l with
  | pop =>
    simp only [Bounds.step] at hs
    split_ifs at hs
    rw [← Option.some.inj hs]
    exact ⟨trivial, h.bounded, by simp⟩
  | recvHeader bytesRead ret contentLength =>
    have hsafe : Safe s (.recvHeader bytesRead ret contentLength) := by
      simp only [Safe, Counters.asked]
      omega
    simp only [Bounds.step] at hs
    split_ifs at hs with hguard hend hanswer
    · rw [← Option.some.inj hs]
      exact ⟨hsafe, h.bounded, by simp⟩
    · obtain ⟨hpos, hroom⟩ := h.bounded.add hguard.2 hend
      have hread : Inv ⟨s.phase, s.buffLen + bytesRead, s.buffLen⟩ :=
        ⟨⟨by simp only; omega, hroom⟩, by simp [hguard.1]⟩
      rw [← Option.some.inj hs]
      exact ⟨hsafe, hread.parsed hanswer.1⟩
  | recvBody bytesRead =>
    simp only [Bounds.step] at hs
    split at hs
    · next headerSize expectedLen hphase =>
      obtain ⟨hsize, hle, hfits⟩ := h.body headerSize expectedLen hphase
      split_ifs at hs with hguard hend
      · rw [← Option.some.inj hs]
        exact ⟨by simp only [Safe, Counters.asked]; omega, h.bounded, by simp⟩
      · obtain ⟨hpos, hroom⟩ := h.bounded.add hguard.2 hend
        rw [← Option.some.inj hs]
        refine ⟨by simp only [Safe, Counters.asked]; omega, ⟨by simp only; omega, hroom⟩,
          fun headerSize' expectedLen' hphase' => ?_⟩
        obtain ⟨rfl, rfl⟩ := Phase.body.inj (hphase.symm.trans hphase')
        exact ⟨hsize, by simp only; omega, hfits⟩
    · exact absurd hs (by simp)
  | process ret =>
    simp only [Bounds.step] at hs
    split at hs
    · next headerSize expectedLen hphase =>
      obtain ⟨hsize, hle, -⟩ := h.body headerSize expectedLen hphase
      have hsafe : Safe s (.process ret) := by
        intro headerSize' expectedLen' hphase'
        obtain ⟨rfl, rfl⟩ := Phase.body.inj (hphase.symm.trans hphase')
        omega
      split_ifs at hs
      · rw [← Option.some.inj hs]
        exact ⟨hsafe, h.bounded, by simp⟩
      · rw [← Option.some.inj hs]
        exact ⟨hsafe, .initial⟩
    · exact absurd hs (by simp)

/-- **The bounds of a worker**, over every sequence of connections: `buff_len` stays inside the
buffer, every `recv` writes inside it, the body loop always asks for a byte, and the body lies
in what was received. -/
theorem bounded_of_run {t : Counters} {ls : List Label}
    (h : run step .initial ls = some t) :
    Throughout step Bounded .initial ls ∧ Along step Safe .initial ls := by
  have hstep : ∀ s l s', Inv s → Bounds.step s l = some s' → Safe s l ∧ Inv s' :=
    fun _ _ _ hi hs => hi.step hs
  refine ⟨fun ms ns u _ hu => ?_, along_of_run hstep Inv.initial h⟩
  exact (run_invariant (fun s l s' hi hs => (hstep s l s' hi hs).2) Inv.initial hu).bounded

/-- A request in two pieces behind a connection that was given up with half of the buffer
full. -/
def staleRun : List Label :=
  [.pop, .recvHeader 4000 (-2) 0, .recvHeader 0 (-1) 0, .pop, .recvHeader 4192 40 8152,
    .process 0, .pop, .recvHeader 40 40 5, .recvBody 5, .process (-1)]

theorem staleRun_bounded : (run step .initial staleRun).map Counters.buffLen = some 45 ∧
    Throughout step Bounded .initial staleRun ∧ Along step Safe .initial staleRun := by
  have hrun : (run step .initial staleRun).map Counters.buffLen = some 45 := by decide
  obtain ⟨t, ht, -⟩ := Option.map_eq_some_iff.mp hrun
  exact ⟨hrun, bounded_of_run ht⟩

/-! ## The counters of a connection -/

/-- The counters of a worker that stands somewhere. -/
def counters (phase : Phase) (st : State) : Counters := ⟨phase, st.buff.length, st.lastLen⟩

/-- What `tcp_recv` returns at the end of a connection. -/
def endValue : Ending → Int
  | .closed => 0
  | .timeout => -1
  | .error => -1

/-- The value `http_parse_request` returns. -/
def answerValue : ParseAnswer → Int
  | .parsed size => size
  | .incomplete => -2
  | _ => -1

theorem receives_end (s : Counters) (ending : Ending) :
    s.Receives (endValue ending) ∧ (endValue ending = 0 ∨ endValue ending = -1) := by
  cases ending <;> exact ⟨⟨by decide, by simp only [endValue]; omega⟩, by decide⟩

/-- A piece is received as far as there is room. -/
theorem receives_take {st : State} (h : st.buff.length ≤ maxBuffr) (phase : Phase) (p : Bytes) :
    (counters phase st).Receives (p.take (maxBuffr - st.buff.length)).length := by
  have hasked := CInt.toSizeT_of_nonneg (z := (counters phase st).asked)
    (by simp only [Counters.asked, counters]; omega)
    (by simp only [Counters.asked, counters, maxBuffr_eq]; omega)
  refine ⟨by omega, ?_⟩
  rw [hasked, List.length_take]
  simp only [Counters.asked, counters]
  omega

/-- **One round of the header loop.** -/
theorem step_header {st : State} (h : st.buff.length ≤ maxBuffr) {p : Bytes}
    (hp : p.take (maxBuffr - st.buff.length) ≠ []) {answer : ParseAnswer} {rq : HttpRequest}
    (hanswer : answer ≠ .overrun)
    (hparse : httpParseRequest (st.buff ++ p.take (maxBuffr - st.buff.length)) st.request
      st.buff.length = (answer, rq)) :
    step (counters .header st)
        (.recvHeader (p.take (maxBuffr - st.buff.length)).length (answerValue answer)
          (httpGetContentLength rq)) =
      some ((counters .header
        ⟨st.buff ++ p.take (maxBuffr - st.buff.length), st.buff.length, rq⟩).parsed
          (answerValue answer) (httpGetContentLength rq)) := by
  have hpos := List.length_pos_of_ne_nil hp
  obtain ⟨hlo, hhi⟩ := httpGetContentLength_mem rq
  have hanswers : Answers ((counters .header st).buffLen +
      (p.take (maxBuffr - st.buff.length)).length) (answerValue answer) := by
    cases answer with
    | invalid => exact .inl rfl
    | incomplete => exact .inr (.inl rfl)
    | overrun => exact absurd rfl hanswer
    | parsed size =>
      obtain ⟨hone, hle⟩ := httpParseRequest_mem hparse
      rw [List.length_append] at hle
      refine .inr (.inr ⟨by simp only [answerValue]; omega, ?_⟩)
      simp only [answerValue, counters]
      omega
  have hguard : (counters .header st).phase = .header ∧
      (counters .header st).Receives (p.take (maxBuffr - st.buff.length)).length :=
    ⟨rfl, receives_take h .header p⟩
  simp only [step, if_pos hguard]
  rw [if_neg (by omega), if_pos ⟨hanswers, hlo, by omega⟩]
  simp only [counters, List.length_append, Int.natCast_add]

/-- The end of a connection, in the header loop. -/
theorem step_header_end (st : State) (ending : Ending) :
    step (counters .header st) (.recvHeader (endValue ending) (-1) 0) =
      some (counters .waiting st) := by
  obtain ⟨hreceives, hend⟩ := receives_end (counters .header st) ending
  have hguard : (counters .header st).phase = .header ∧
      (counters .header st).Receives (endValue ending) := ⟨rfl, hreceives⟩
  simp only [step, if_pos hguard, if_pos hend]
  rfl

/-- The counters a connection ends the header loop with. -/
def HeaderRead.counters : HeaderRead → Counters
  | .stop _ st => Bounds.counters .waiting st
  | .block size st _ => (Bounds.counters .header st).parsed size (httpGetContentLength st.request)

/-- **The header loop of a connection is a run of the counters.** -/
theorem readHeader_run (ending : Ending) {pieces : List Bytes} {st : State}
    (h : st.buff.length ≤ maxBuffr)
    (hok : ∀ st', readHeader ending st pieces ≠ .stop .overrun st') :
    ∃ ls, run step (counters .header st) ls =
      some (HeaderRead.counters (readHeader ending st pieces)) := by
  induction pieces generalizing st with
  | nil => exact ⟨_, run_one (step_header_end st ending)⟩
  | cons p ps ih =>
    by_cases hnil : p.take (maxBuffr - st.buff.length) = []
    · simp only [readHeader, if_pos hnil]
      exact ⟨_, run_one (step_header_end st .closed)⟩
    · simp only [readHeader, if_neg hnil] at hok ⊢
      obtain ⟨answer, rq, hparse⟩ : ∃ answer rq,
          httpParseRequest (st.buff ++ p.take (maxBuffr - st.buff.length)) st.request
            st.buff.length = (answer, rq) := ⟨_, _, rfl⟩
      simp only [hparse] at hok ⊢
      have hanswer : answer ≠ .overrun := by
        rintro rfl
        exact hok _ rfl
      have hstep := step_header h hnil hanswer hparse
      cases answer with
      | overrun => exact absurd rfl hanswer
      | invalid => exact ⟨_, run_one hstep⟩
      | parsed size => exact ⟨_, run_one hstep⟩
      | incomplete =>
        by_cases hfull : (st.buff ++ p.take (maxBuffr - st.buff.length)).length = maxBuffr
        · simp only [if_pos hfull]
          refine ⟨_, (run_one hstep).trans (congrArg some ?_)⟩
          exact if_pos (.inr ⟨by simp [counters, hfull], rfl⟩)
        · simp only [if_neg hfull] at hok ⊢
          have hroom : (st.buff ++ p.take (maxBuffr - st.buff.length)).length ≤ maxBuffr := by
            rw [List.length_append, List.length_take]
            omega
          obtain ⟨ls, hls⟩ := @ih ⟨st.buff ++ p.take (maxBuffr - st.buff.length),
            st.buff.length, rq⟩ hroom hok
          have hagain : (counters .header ⟨st.buff ++ p.take (maxBuffr - st.buff.length),
              st.buff.length, rq⟩).parsed (-2) (httpGetContentLength rq) =
                counters .header ⟨st.buff ++ p.take (maxBuffr - st.buff.length),
                  st.buff.length, rq⟩ := by
            unfold Counters.parsed
            rw [if_neg, if_pos rfl]
            rintro (habs | ⟨hbuff, -⟩)
            · exact absurd habs (by decide)
            · exact hfull (Int.natCast_inj.mp hbuff)
          rw [answerValue, hagain] at hstep
          exact ⟨_ :: ls, by rw [run_cons hstep]; exact hls⟩

/-- One round of the body loop. -/
theorem step_body {s : Counters} {headerSize expectedLen bytesRead : Int}
    (hphase : s.phase = .body headerSize expectedLen)
    (hmore : s.buffLen - headerSize < expectedLen) (hreceives : s.Receives bytesRead) :
    step s (.recvBody bytesRead) =
      if bytesRead = 0 ∨ bytesRead = -1 then some { s with phase := .waiting }
      else some { s with buffLen := s.buffLen + bytesRead } := by
  simp only [step, hphase]
  exact if_pos ⟨hmore, hreceives⟩

/-- **The body loop of a connection is a run of the counters.** -/
theorem readBody_run (ending : Ending) (headerSize : ℕ) (expectedLen : Int) {pieces : List Bytes}
    {st st' : State} {received : Option Received} (h : st.buff.length ≤ maxBuffr)
    (hread : readBody ending headerSize expectedLen st pieces = (received, st')) :
    ∃ ls, run step (counters (.body headerSize expectedLen) st) ls =
        some (counters (if received.isSome then .waiting else .body headerSize expectedLen) st') ∧
      (received = none → ¬ (st'.buff.length : Int) - headerSize < expectedLen) := by
  have hend : ∀ {st : State} (ending : Ending), (st.buff.length : Int) - headerSize < expectedLen →
      step (counters (.body headerSize expectedLen) st) (.recvBody (endValue ending)) =
        some (counters .waiting st) := by
    intro st ending hmore
    obtain ⟨hreceives, hends⟩ := receives_end (counters (.body headerSize expectedLen) st) ending
    rw [step_body rfl hmore hreceives, if_pos hends]
    rfl
  induction pieces generalizing st with
  | nil =>
    simp only [readBody] at hread
    split_ifs at hread with hmore
    · obtain ⟨rfl, rfl⟩ := Prod.mk.inj hread
      exact ⟨_, run_one (hend ending hmore), by simp⟩
    · obtain ⟨rfl, rfl⟩ := Prod.mk.inj hread
      exact ⟨[], rfl, fun _ => hmore⟩
  | cons p ps ih =>
    simp only [readBody] at hread
    split_ifs at hread with hmore hnil
    · obtain ⟨rfl, rfl⟩ := Prod.mk.inj hread
      exact ⟨_, run_one (hend .closed hmore), by simp⟩
    · have hpos := List.length_pos_of_ne_nil hnil
      have hroom : (st.buff ++ p.take (maxBuffr - st.buff.length)).length ≤ maxBuffr := by
        rw [List.length_append, List.length_take]
        omega
      obtain ⟨ls, hls, hdone⟩ := @ih
        { st with buff := st.buff ++ p.take (maxBuffr - st.buff.length) } hroom hread
      have hstep : step (counters (.body headerSize expectedLen) st)
          (.recvBody (p.take (maxBuffr - st.buff.length)).length) =
            some (counters (.body headerSize expectedLen)
              { st with buff := st.buff ++ p.take (maxBuffr - st.buff.length) }) := by
        rw [step_body rfl hmore (receives_take h (.body headerSize expectedLen) p),
          if_neg (by omega)]
        simp only [counters, List.length_append, Int.natCast_add]
      exact ⟨_ :: ls, by rw [run_cons hstep]; exact hls, hdone⟩
    · obtain ⟨rfl, rfl⟩ := Prod.mk.inj hread
      exact ⟨[], rfl, fun _ => hmore⟩

/-- The answer to a request. -/
theorem step_process {s : Counters} {headerSize expectedLen : Int}
    (hphase : s.phase = .body headerSize expectedLen)
    (hdone : ¬ s.buffLen - headerSize < expectedLen) (ret : Int) :
    step s (.process ret) =
      if ret < 0 then some { s with phase := .waiting } else some ⟨.waiting, 0, 0⟩ := by
  simp only [step, hphase]
  exact if_neg hdone

/-- A loop that is left early has no request. -/
theorem readHeader_ne_complete (ending : Ending) (pieces : List Bytes) (st st' : State)
    (rq : HttpRequest) : readHeader ending st pieces ≠ .stop (.complete rq) st' := by
  induction pieces generalizing st with
  | nil => cases ending <;> simp [readHeader, Ending.inHeaders]
  | cons p ps ih =>
    simp only [readHeader]
    by_cases hnil : p.take (maxBuffr - st.buff.length) = []
    · rw [if_pos hnil]
      simp
    · rw [if_neg hnil]
      split
      · simp
      · split_ifs
        · simp
        · exact ih _
      · simp
      · simp

theorem readBody_ne_complete (ending : Ending) (headerSize : ℕ) (expectedLen : Int)
    (pieces : List Bytes) (st : State) (rq : HttpRequest) :
    (readBody ending headerSize expectedLen st pieces).1 ≠ some (.complete rq) := by
  induction pieces generalizing st with
  | nil =>
    simp only [readBody]
    split_ifs
    · cases ending <;> simp [Ending.inBody]
    · simp
  | cons p ps ih =>
    simp only [readBody]
    split_ifs
    · simp
    · exact ih _
    · simp

/-- What was not received as a request leaves the worker as it is. -/
theorem serve_snd_of_ne_complete (sc : ServerConf) {st st' : State} {c : Connection}
    {received : Received} (h : receive st c.pieces c.ending = (received, st'))
    (hne : ∀ rq, received ≠ .complete rq) : (serve sc st c).2 = st' := by
  unfold serve
  simp only [h]

/-- A request that was received is answered, and a worker that could answer it starts anew. -/
theorem serve_snd_of_complete (sc : ServerConf) {st st' : State} {c : Connection}
    {rq : HttpRequest} (h : receive st c.pieces c.ending = (.complete rq, st')) :
    (serve sc st c).2 =
      if (answer sc (.complete rq) ⟨c.env, []⟩).1 < 0 then st'
      else { st' with buff := [], lastLen := 0 } := by
  unfold serve
  simp only [h]
  split_ifs <;> rfl

/-- Behind the header block. -/
theorem HeaderRead.counters_block (size : ℕ) (st : State) (rest : List Bytes) :
    HeaderRead.counters (.block size st rest) =
      if (maxBuffr : Int) - size < httpGetContentLength st.request then Bounds.counters .waiting st
      else Bounds.counters (.body size (httpGetContentLength st.request)) st := by
  simp only [HeaderRead.counters, Counters.parsed]
  rw [if_neg (by omega), if_neg (by omega)]
  rfl

/-- **The rest of a connection whose body fits**: the body loop, and the answer. -/
theorem serve_run_of_block (sc : ServerConf) {st st' : State} {c : Connection} {size : ℕ}
    {rest : List Bytes} (hread : readHeader c.ending st c.pieces = .block size st' rest)
    (hfits : ¬ (maxBuffr : Int) - size < httpGetContentLength st'.request)
    (h : st'.buff.length ≤ maxBuffr) :
    ∃ ls, run step (counters (.body size (httpGetContentLength st'.request)) st') ls =
      some (counters .waiting (serve sc st c).2) := by
  obtain ⟨received, st'', hbody⟩ : ∃ received st'', readBody c.ending size
      (httpGetContentLength st'.request) st' rest = (received, st'') := ⟨_, _, rfl⟩
  obtain ⟨ls, hls, hdone⟩ := readBody_run c.ending size _ h hbody
  cases received with
  | some received =>
    have hreceive : receive st c.pieces c.ending = (received, st'') := by
      simp only [receive, hread, if_neg hfits, hbody]
    rw [serve_snd_of_ne_complete sc hreceive fun rq hrq =>
      readBody_ne_complete c.ending size _ rest st' rq (by rw [hbody, hrq])]
    exact ⟨ls, hls⟩
  | none =>
    obtain ⟨rq, hreceive⟩ : ∃ rq, receive st c.pieces c.ending = (.complete rq, st'') := by
      simp only [receive, hread, if_neg hfits, hbody]
      exact ⟨_, rfl⟩
    have hprocess : step (counters (.body size (httpGetContentLength st'.request)) st'')
        (.process (answer sc (.complete rq) ⟨c.env, []⟩).1) =
          some (counters .waiting (serve sc st c).2) := by
      rw [step_process rfl (hdone rfl), serve_snd_of_complete sc hreceive]
      split_ifs <;> rfl
    exact ⟨_, (run_append hls [_]).trans (run_one hprocess)⟩

/-- **A connection is a run of the counters**, if no header is stored behind the array. -/
theorem serve_run (sc : ServerConf) {st : State} (h : st.buff.length ≤ maxBuffr) (c : Connection)
    (hok : (receive st c.pieces c.ending).1 ≠ .overrun) :
    ∃ ls, run step (counters .waiting st) ls = some (counters .waiting (serve sc st c).2) := by
  have hpop : step (counters .waiting st) .pop = some (counters .header st) := rfl
  have hstart : Inv (counters .header st) :=
    ⟨⟨by simp only [counters]; omega, by simp only [counters]; omega⟩, by simp [counters]⟩
  have hoverrun : ∀ st', readHeader c.ending st c.pieces ≠ .stop .overrun st' := by
    intro st' hread
    exact hok (by simp only [receive, hread])
  obtain ⟨ls, hls⟩ := readHeader_run c.ending h hoverrun
  have hinv := run_invariant (fun s l s' hi hs => (hi.step hs).2) hstart hls
  replace hls : run step (counters .waiting st) (.pop :: ls) = _ := (run_cons hpop ls).trans hls
  cases hread : readHeader c.ending st c.pieces with
  | stop received st' =>
    have hreceive : receive st c.pieces c.ending = (received, st') := by simp only [receive, hread]
    rw [serve_snd_of_ne_complete sc hreceive fun rq hrq =>
      readHeader_ne_complete c.ending c.pieces st st' rq (hrq ▸ hread)]
    rw [hread] at hls
    exact ⟨_, hls⟩
  | block size st' rest =>
    rw [hread, HeaderRead.counters_block] at hls hinv
    by_cases hlong : (maxBuffr : Int) - size < httpGetContentLength st'.request
    · rw [if_pos hlong] at hls
      have hreceive : receive st c.pieces c.ending = (.rejected, st') := by
        simp only [receive, hread, if_pos hlong]
      rw [serve_snd_of_ne_complete sc hreceive (by simp)]
      exact ⟨_, hls⟩
    · rw [if_neg hlong] at hls hinv
      have hlen : st'.buff.length ≤ maxBuffr := Int.ofNat_le.mp hinv.bounded.2
      obtain ⟨ms, hms⟩ := serve_run_of_block sc hread hlong hlen
      exact ⟨_, (run_append hls ms).trans hms⟩

end Bounds
end Worker
end BareHttp
