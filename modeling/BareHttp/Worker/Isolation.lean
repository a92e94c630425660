import BareHttp.Http.Delivery
import BareHttp.Worker.Reading

/-!
# Connections of one worker, one after the other

What a connection gets should depend on what arrives on it and on nothing that came
before.  The worker empties `buff` only behind a request that was processed, so a
connection that ends otherwise leaves its bytes in front of the next one's
(`halfRequest_not_isolated`).

`Clean` is the condition on a connection under which it leaves nothing: no byte
arrives, or the bytes form a request that fits and is processed without an error.
Behind clean connections every connection gets the same result
(`serve_eq_of_clean`).  A worker starts with a `request` that is whatever its stack
holds; the padding in it counts as well, up to the first parse.
-/

namespace BareHttp
namespace Worker

/-! ## Two workers with the same buffer -/

/-- The same buffer and the same padding: all of a worker's state that the next
connection can see. -/
structure Alike (st st' : State) : Prop where
  buff_eq : st.buff = st'.buff
  pad_eq : st.request.headersPad = st'.request.headersPad

/-- The header loop of two such workers stops in the same way. -/
theorem readHeader_alike (ending : Ending) (pieces : List Bytes) {st st' : State}
    (h : Alike st st') :
    (∃ received st₁ st₁', readHeader ending st pieces = .stop received st₁ ∧
      readHeader ending st' pieces = .stop received st₁') ∨
    (∃ size st₁ st₁' rest, readHeader ending st pieces = .block size st₁ rest ∧
      readHeader ending st' pieces = .block size st₁' rest ∧ st₁.buff = st₁'.buff ∧
      ∀ b, { st₁.request with body := b } = { st₁'.request with body := b }) := by
  induction pieces generalizing st st' with
  | nil => exact Or.inl ⟨_, _, _, rfl, rfl⟩
  | cons p ps ih =>
    simp only [readHeader, ← h.buff_eq]
    by_cases hnil : p.take (maxBuffr - st.buff.length) = []
    · simp only [if_pos hnil]
      exact Or.inl ⟨_, _, _, rfl, rfl⟩
    · simp only [if_neg hnil]
      obtain ⟨answer, rq, rq', h₁, h₂, hrq, hpad, hpad'⟩ := httpParseRequest_alike
        (st.buff ++ p.take (maxBuffr - st.buff.length)) st.buff.length h.pad_eq
      simp only [h₁, h₂]
      cases answer with
      | invalid => exact Or.inl ⟨_, _, _, rfl, rfl⟩
      | overrun => exact Or.inl ⟨_, _, _, rfl, rfl⟩
      | parsed size => exact Or.inr ⟨_, _, _, _, rfl, rfl, rfl, hrq⟩
      | incomplete =>
        simp only
        split_ifs with hfull
        · exact Or.inl ⟨_, _, _, rfl, rfl⟩
        · exact ih ⟨rfl, hpad.trans hpad'.symm⟩

/-- The body loop looks at nothing but the buffer. -/
theorem readBody_alike (ending : Ending) (headerSize : ℕ) (expectedLen : Int)
    (pieces : List Bytes) {st st' : State} (h : st.buff = st'.buff) :
    ∃ received buff,
      readBody ending headerSize expectedLen st pieces = (received, { st with buff := buff }) ∧
        readBody ending headerSize expectedLen st' pieces =
          (received, { st' with buff := buff }) := by
  induction pieces generalizing st st' with
  | nil =>
    simp only [readBody, ← h]
    split_ifs
    · exact ⟨_, st.buff, rfl, by rw [h]⟩
    · exact ⟨_, st.buff, rfl, by rw [h]⟩
  | cons p ps ih =>
    simp only [readBody, ← h]
    split_ifs
    · exact ⟨_, st.buff, rfl, by rw [h]⟩
    · exact @ih { st with buff := st.buff ++ p.take (maxBuffr - st.buff.length) }
        { st' with buff := st.buff ++ p.take (maxBuffr - st.buff.length) } rfl
    · exact ⟨_, st.buff, rfl, by rw [h]⟩

/-- **Two workers with the same buffer receive the same request.** -/
theorem receive_alike {st st' : State} (h : Alike st st') (pieces : List Bytes)
    (ending : Ending) : (receive st pieces ending).1 = (receive st' pieces ending).1 := by
  unfold receive
  rcases readHeader_alike ending pieces h with
    ⟨received, st₁, st₁', h₁, h₂⟩ | ⟨size, st₁, st₁', rest, h₁, h₂, hbuff, hrequest⟩
  · simp only [h₁, h₂]
  · have hcl : httpGetContentLength st₁'.request = httpGetContentLength st₁.request :=
      (congrArg httpGetContentLength (hrequest ⟨0, none⟩)).symm
    obtain ⟨received, buff, hb₁, hb₂⟩ := readBody_alike ending size
      (httpGetContentLength st₁.request) rest hbuff
    simp only [h₁, h₂, hcl, hb₁, hb₂]
    split_ifs
    · rfl
    · cases received with
      | some received => rfl
      | none => simp only [hrequest]

/-- The result of a connection is read off what was received on it. -/
theorem serve_fst (sc : ServerConf) (st : State) (c : Connection) :
    (serve sc st c).1 = ⟨(receive st c.pieces c.ending).1,
      (answer sc (receive st c.pieces c.ending).1 ⟨c.env, []⟩).2.sent⟩ := by
  unfold serve
  obtain ⟨received, st'⟩ := receive st c.pieces c.ending
  simp only
  obtain ⟨ret, w⟩ := answer sc received ⟨c.env, []⟩
  cases received with
  | complete request => simp only; split_ifs <;> rfl
  | closed | timedOut | failed | rejected | overrun => rfl

theorem serve_alike (sc : ServerConf) {st st' : State} (h : Alike st st') (c : Connection) :
    (serve sc st c).1 = (serve sc st' c).1 := by
  rw [serve_fst, serve_fst, receive_alike h]

/-! ## Connections that leave nothing -/

/-- An empty buffer, and no number in the padding. -/
structure Fresh (st : State) : Prop where
  buff_eq : st.buff = []
  pad_eq : st.request.headersPad = 0

theorem Fresh.alike {st st' : State} (h : Fresh st) (h' : Fresh st') : Alike st st' :=
  ⟨h.buff_eq.trans h'.buff_eq.symm, h.pad_eq.trans h'.pad_eq.symm⟩

/-- Nothing arrives, or a request that fits and is processed without an error. -/
def Clean (sc : ServerConf) (c : Connection) : Prop :=
  c.pieces = [] ∨
    ∃ h rq, Fits c.stream h rq ∧ ¬ (plan sc rq c.env).Fails c.env

/-- **A clean connection leaves a fresh worker fresh.** -/
theorem fresh_serve {sc : ServerConf} {st : State} {c : Connection} (hst : Fresh st)
    (hc : Clean sc c) : Fresh (serve sc st c).2 := by
  rcases hc with hnil | ⟨h, rq, hfits, hplan⟩
  · have hrec : receive st c.pieces c.ending = (c.ending.inHeaders, st) := by
      rw [hnil]
      rfl
    unfold serve
    rw [hrec]
    cases c.ending with
    | closed | timeout | error => exact hst
  · obtain ⟨rq', st', hrec, hmethod, hurl, -, hpad⟩ :=
      receive_of_fits hst.buff_eq c.nonempty c.ending hfits
    have hret : ¬ (httpProcessRequest sc rq' ⟨c.env, []⟩).1 < 0 := by
      rw [(httpProcessRequest_spec sc rq' ⟨c.env, []⟩).1, plan_congr sc c.env hmethod hurl]
      exact hplan
    have hanswer : answer sc (.complete rq') ⟨c.env, []⟩ =
        httpProcessRequest sc rq' ⟨c.env, []⟩ := by
      simp only [answer, if_neg hret]
    unfold serve
    simp only [hrec, hanswer, if_neg hret]
    exact ⟨rfl, hpad⟩

/-- A worker is fresh behind clean connections. -/
theorem fresh_serveAll {sc : ServerConf} {st : State} {cs : List Connection} (hst : Fresh st)
    (hcs : ∀ c ∈ cs, Clean sc c) : Fresh (serveAll sc st cs) := by
  induction cs generalizing st with
  | nil => exact hst
  | cons c cs ih =>
    exact ih (fresh_serve hst (hcs c (by simp))) fun c' hc' => hcs c' (by simp [hc'])

/-- **Isolation behind clean connections.**  Two workers that start with no number in
the padding of `request`, whatever else their stacks hold, and serve any two
sequences of clean connections give the next connection the same result: the same
request or rejection, and the same bytes. -/
theorem serve_eq_of_clean {sc : ServerConf} {rq rq' : HttpRequest} {cs cs' : List Connection}
    (hpad : rq.headersPad = 0) (hpad' : rq'.headersPad = 0) (hcs : ∀ c ∈ cs, Clean sc c)
    (hcs' : ∀ c ∈ cs', Clean sc c) (c : Connection) :
    (serve sc (serveAll sc (.initial rq) cs) c).1 =
      (serve sc (serveAll sc (.initial rq') cs') c).1 := by
  have hst : Fresh (State.initial rq) := ⟨rfl, hpad⟩
  have hst' : Fresh (State.initial rq') := ⟨rfl, hpad'⟩
  exact serve_alike sc ((fresh_serveAll hst hcs).alike (fresh_serveAll hst' hcs')) c

/-- A client that gives up in the middle of the request line. -/
def halfRequest : Connection where
  pieces := [ascii "GET / HT"]
  nonempty := by decide
  ending := .closed
  env := optionsConnection.env

/-- The request of `optionsConnection`. -/
def optionsRequest : HttpRequest :=
  (httpParseRequest (ascii "OPTIONS / HTTP/1.1\r\n\r\n") .zeroed 0).2

theorem optionsConnection_fits :
    Fits optionsConnection.stream (ascii "OPTIONS / HTTP/1.1\r\n\r\n") optionsRequest where
  parsed := by decide +kernel
  block_prefix := by decide +kernel
  length_le := by decide +kernel
  fits := by decide +kernel
  arrives := by decide +kernel

theorem optionsConnection_clean : Clean sampleConf optionsConnection := by
  refine Or.inr ⟨_, optionsRequest, optionsConnection_fits, ?_⟩
  have hplan : plan sampleConf optionsRequest optionsConnection.env = .options optionsHeader := by
    decide +kernel
  intro h
  rw [hplan] at h
  exact absurd h (by simp [Plan.Fails, optionsConnection, Env.calm, SendResult.failed])

theorem optionsConnection_isolated :
    Clean sampleConf optionsConnection ∧
      (serve sampleConf (serveAll sampleConf (.initial .zeroed)
          [optionsConnection, optionsConnection]) optionsConnection).1 =
        (serve sampleConf (serveAll sampleConf (.initial .zeroed) []) optionsConnection).1 := by
  refine ⟨optionsConnection_clean, serve_eq_of_clean rfl rfl ?_ ?_ optionsConnection⟩
  · intro c hc
    rcases List.mem_cons.1 hc with rfl | hc
    · exact optionsConnection_clean
    · rw [List.mem_singleton.1 hc]
      exact optionsConnection_clean
  · exact fun c hc => absurd hc (by simp)

/-- Behind a client that gave up, a request in order is rejected. -/
theorem halfRequest_not_isolated :
    (serve sampleConf (serveAll sampleConf (.initial .zeroed) []) optionsConnection).1.received =
        .complete optionsRequest ∧
      (serve sampleConf (serveAll sampleConf (.initial .zeroed) [halfRequest])
        optionsConnection).1.received = .rejected := by
  decide +kernel

end Worker
end BareHttp
