import BareHttp.Epoll.Answer

/-!
# Closing without an answer

A client whose connection the server closes should have been told something.  Here
is the exact list of the cases in which it was not, on a socket that takes
everything it is given.

Three are rejections before any request is dispatched: an invalid header block, one
that fills the buffer, and a declared body that does not fit.  The thread pool
answers the same three with a page.  A fourth is a buffer that is full in the middle of a
body, which counting its bytes twice brings about: `recv` is then asked for no bytes, returns 0,
and the server takes that for a close by the peer.  The others are requests that
`http_process_request` returns from without sending (`Unanswered`): a `POST` to a
path that is not a script, an error of `open` without a page, a failed `fstat`,
`pipe` or `fork`, and a script whose output fills its buffer.
-/

namespace BareHttp

/-! ## Requests that are not answered -/

/-- An error of `open` that no page is sent for. -/
def Errno.unpaged : Errno → Bool
  | .eacces => false
  | .eloop => false
  | .enoent => false
  | _ => true

/-- The number of bytes a result of `read` delivers. -/
def readLength : Option (UInt8 × Bytes) → ℕ
  | some p => p.2.length + 1
  | none => 0

/-- The number of bytes the first `k` results of `read` deliver. -/
def outputLength : ℕ → (ℕ → Option (UInt8 × Bytes)) → ℕ
  | 0, _ => 0
  | k + 1, reads => readLength (reads 0) + outputLength k (tail reads)

/-- A script writes at least `n` bytes before its output ends. -/
def WritesAtLeast (n : ℕ) (reads : ℕ → Option (UInt8 × Bytes)) : Prop :=
  ∃ k, (∀ i < k, reads i ≠ none) ∧ n ≤ outputLength k reads

theorem writesAtLeast_zero (reads : ℕ → Option (UInt8 × Bytes)) : WritesAtLeast 0 reads :=
  ⟨0, fun _ h => absurd h (by omega), Nat.zero_le _⟩

theorem not_writesAtLeast_of_none {n : ℕ} {reads : ℕ → Option (UInt8 × Bytes)}
    (h : reads 0 = none) (hn : 0 < n) : ¬ WritesAtLeast n reads := by
  rintro ⟨k, hall, hk⟩
  cases k with
  | zero => exact absurd hk (by simp only [outputLength]; omega)
  | succ k => exact hall 0 (by omega) h

theorem writesAtLeast_iff_tail {n : ℕ} {reads : ℕ → Option (UInt8 × Bytes)} {b : UInt8}
    {bs : Bytes} (h : reads 0 = some (b, bs)) (hn : 0 < n) :
    WritesAtLeast n reads ↔ WritesAtLeast (n - (bs.length + 1)) (tail reads) := by
  constructor
  · rintro ⟨k, hall, hk⟩
    cases k with
    | zero => exact absurd hk (by simp only [outputLength]; omega)
    | succ k =>
      refine ⟨k, fun i hi => hall (i + 1) (by omega), ?_⟩
      simp only [outputLength, h, readLength] at hk
      omega
  · rintro ⟨k, hall, hk⟩
    refine ⟨k + 1, fun i hi => ?_, ?_⟩
    · cases i with
      | zero => simp [h]
      | succ i => exact hall i (by omega)
    · simp only [outputLength, h, readLength]
      omega

/-- **The output of a script is dropped exactly when it fills the buffer.** -/
theorem collectOutput_eq_none_iff (fuel : ℕ) (out : Bytes) (reads : ℕ → Option (UInt8 × Bytes))
    (hfuel : maxBuffr < out.length + fuel) (hout : out.length ≤ maxBuffr) :
    collectOutput fuel out reads = none ↔ WritesAtLeast (maxBuffr - out.length) reads := by
  induction fuel generalizing out reads with
  | zero => omega
  | succ fuel ih =>
    simp only [collectOutput]
    by_cases hfull : maxBuffr ≤ out.length
    · rw [if_pos hfull, Nat.sub_eq_zero_of_le hfull]
      exact ⟨fun _ => writesAtLeast_zero reads, fun _ => rfl⟩
    · rw [if_neg hfull]
      cases hr : reads 0 with
      | none =>
        have hno := not_writesAtLeast_of_none hr (n := maxBuffr - out.length) (by omega)
        simp [hno]
      | some p =>
        obtain ⟨b, bs⟩ := p
        have hlen : (out ++ (b :: bs).take (maxBuffr - out.length)).length =
            out.length + min (maxBuffr - out.length) (bs.length + 1) := by
          simp
        have hsub : maxBuffr - (out ++ (b :: bs).take (maxBuffr - out.length)).length =
            maxBuffr - out.length - (bs.length + 1) := by
          rw [hlen]
          omega
        rw [writesAtLeast_iff_tail hr (by omega), ← hsub]
        exact ih _ (tail reads) (by rw [hlen]; omega) (by rw [hlen]; omega)

/-- The errors of a script that end without a page. -/
def ScriptUnanswered (env : Env) : Prop :=
  match env.openat2 0 with
  | .error e => e.unpaged = true
  | .ok _ =>
    env.pipe 0 = none ∨ env.pipe 1 = none ∨ env.fork 0 = none ∨ WritesAtLeast maxBuffr env.read

/-- The errors of a file that end without a page. -/
def FileUnanswered (env : Env) : Prop :=
  match env.openat2 0 with
  | .error e => e.unpaged = true
  | .ok _ => env.fstat 0 = none

/-- Nothing is sent for the request. -/
def Unanswered (request : HttpRequest) (env : Env) : Prop :=
  checkPathTraversal request.url = false ∧
    ∃ path, buildPath (urlPath request.url) = some path ∧
      match requestMethodType request.method with
      | .get => if isScript path then ScriptUnanswered env else FileUnanswered env
      | .post => isScript path = true → ScriptUnanswered env
      | _ => False

theorem outputPlan_ne_silent (sc : ServerConf) (out : Bytes) (date : Option Bytes) (ret : Int) :
    outputPlan sc out date ≠ .silent ret := by
  unfold outputPlan
  repeat' split
  all_goals simp

theorem scriptPlan_eq_silent_iff (sc : ServerConf) (env : Env) :
    (∃ ret, scriptPlan sc env = .silent ret) ↔ ScriptUnanswered env := by
  unfold scriptPlan ScriptUnanswered runPlan
  cases env.openat2 0 with
  | error e => cases e <;> simp [Errno.unpaged]
  | ok f =>
    have hfill := collectOutput_eq_none_iff (maxBuffr + 1) [] env.read (by simp)
      (Nat.zero_le _)
    simp only [List.length_nil, Nat.sub_zero] at hfill
    simp only [← hfill]
    by_cases hpipes : env.pipe 0 = none ∨ env.pipe 1 = none ∨ env.fork 0 = none
    · simp only [if_pos hpipes]
      exact ⟨fun _ => by tauto, fun _ => ⟨-1, rfl⟩⟩
    · simp only [if_neg hpipes]
      cases hout : collectOutput (maxBuffr + 1) [] env.read with
      | none => simp
      | some out => simpa [outputPlan_ne_silent] using hpipes

theorem filePlan_eq_silent_iff (sc : ServerConf) (path : Bytes) (env : Env) :
    (∃ ret, filePlan sc path env = .silent ret) ↔ FileUnanswered env := by
  unfold filePlan FileUnanswered
  cases env.openat2 0 with
  | error e => cases e <;> simp [Errno.unpaged]
  | ok f =>
    cases env.fstat 0 with
    | none => simp
    | some st =>
      simp only [reduceCtorEq, iff_false]
      rintro ⟨ret, h⟩
      split at h
      · split at h <;> simp at h
      · simp at h

/-- **Which requests nothing is sent for.** -/
theorem plan_eq_silent_iff (sc : ServerConf) (request : HttpRequest) (env : Env) :
    (∃ ret, plan sc request env = .silent ret) ↔ Unanswered request env := by
  unfold plan Unanswered
  cases requestMethodType request.method with
  | unknown => simp
  | options => simp
  | get =>
    cases htrav : checkPathTraversal request.url with
    | true => simp
    | false =>
      cases buildPath (urlPath request.url) with
      | none => simp
      | some path =>
        cases hscript : isScript path with
        | true => simpa [hscript] using scriptPlan_eq_silent_iff sc env
        | false => simpa [hscript] using filePlan_eq_silent_iff sc path env
  | post =>
    cases htrav : checkPathTraversal request.url with
    | true => simp
    | false =>
      cases buildPath (urlPath request.url) with
      | none => simp
      | some path =>
        cases hscript : isScript path with
        | true => simpa [hscript] using scriptPlan_eq_silent_iff sc env
        | false => simp [hscript]

/-- A plan puts a status line on a socket that takes everything exactly when it is not
silent. -/
theorem statusLine_delivered_iff {env : Env} (hall : ∀ n, env.send n = .all) {p : Plan}
    (hwf : p.WellFormed) :
    (∃ status, statusLine status <+: p.delivered env) ↔ ¬ ∃ ret, p = .silent ret := by
  have htake : ∀ n (buf : Bytes), buf.take ((env.send n).accepted buf) = buf := by
    intro n buf
    rw [hall n]
    exact List.take_length
  cases p with
  | silent ret =>
    simp only [Plan.delivered, Plan.silent.injEq, exists_eq', not_true_eq_false, iff_false]
    rintro ⟨status, h⟩
    exact ne_nil_of_statusLine h rfl
  | page status ret =>
    simp only [reduceCtorEq, exists_false, not_false_eq_true, iff_true]
    refine ⟨status, (statusLine_prefix_errorHeaders status).trans ?_⟩
    rw [Plan.delivered, pageBytes, htake]
    exact List.prefix_append _ _
  | options header =>
    simp only [reduceCtorEq, exists_false, not_false_eq_true, iff_true]
    refine ⟨.noContent, ?_⟩
    rw [Plan.delivered, htake]
    exact hwf
  | file header path =>
    simp only [reduceCtorEq, exists_false, not_false_eq_true, iff_true]
    refine ⟨.ok, hwf.trans ?_⟩
    rw [Plan.delivered, htake]
    exact List.prefix_append _ _
  | script header output =>
    simp only [reduceCtorEq, exists_false, not_false_eq_true, iff_true]
    refine ⟨.ok, hwf.trans ?_⟩
    rw [Plan.delivered, htake]
    exact List.prefix_append _ _

namespace Epoll

/-! ## Connections the server closes -/

/-- The server closes the connection by itself: the peer has not closed it, and `recv`
has not failed.  A `recv` that is asked for no bytes returns 0 without the peer. -/
def ClosesItself (cd : ClientData) (r : RecvResult) : Prop :=
  match clientIo cd r with
  | .close .byPeer => cd.recvLen = 0
  | .close .internalError => False
  | .close _ => True
  | .dispatch _ => True
  | _ => False

/-- The event that ends the connection is one at which the server closes it. -/
def ClosedByServer (cd : ClientData) (rs : List RecvResult) : Prop :=
  ∃ cd' r, closingEvent cd rs = some (cd', r) ∧ ClosesItself cd' r

/-- The request that the next piece completes, if it ends the connection: in the header
state the one just parsed, unless it is rejected; in the body state the one parsed
before. -/
def completed (cd : ClientData) (bytes : Bytes) : Option HttpRequest :=
  match cd.state with
  | .readingHeaders =>
    match httpParseRequest (cd.received ++ bytes) cd.httpRq cd.rqSize with
    | (.parsed _, rq) =>
      if tooLong (httpGetContentLength rq) (cd.rqSize + bytes.length) then none else some rq
    | _ => none
  | .readingBody => some cd.httpRq
  | .sendingResponse => none

/-- **Every way the server closes a connection by itself.** -/
theorem clientIo_closesItself {cd : ClientData} {r : RecvResult} (h : ClosesItself cd r) :
    (r = .closed ∧ cd.recvLen = 0) ∨ ∃ bytes, r = .data bytes ∧
      ((∃ rq rq', clientIo cd r = .dispatch rq' ∧ completed cd bytes = some rq ∧
          rq'.method = rq.method ∧ rq'.url = rq.url) ∨
        (∃ cause, clientIo cd r = .close cause) ∧ completed cd bytes = none) := by
  cases r with
  | closed => exact Or.inl ⟨rfl, h⟩
  | wouldBlock => exact absurd h (by simp [clientIo, ClosesItself])
  | error => exact absurd h (by simp [clientIo, ClosesItself])
  | data bytes =>
    refine Or.inr ⟨bytes, rfl, ?_⟩
    by_cases hfit : maxBuffr < cd.rqSize + bytes.length
    · exact absurd h (by simp [clientIo, if_pos hfit, ClosesItself])
    · simp only [ClosesItself, clientIo, if_neg hfit] at h ⊢
      unfold completed
      cases hst : cd.state with
      | sendingResponse => exact absurd h (by simp [hst])
      | readingBody =>
        simp only [hst, readBody] at h ⊢
        split_ifs at h ⊢ with hdone
        · exact Or.inl ⟨_, _, rfl, rfl, rfl, rfl⟩
        · exact False.elim h
      | readingHeaders =>
        have hreceived : Buffer.slice (Buffer.write cd.rq cd.rqSize bytes) 0
            (cd.rqSize + bytes.length) = Buffer.slice cd.rq 0 cd.rqSize ++ bytes :=
          Buffer.slice_write_append cd.rq cd.rqSize bytes
        simp only [hst, readHeaders, ClientData.received] at h ⊢
        rw [hreceived] at h ⊢
        generalize httpParseRequest (Buffer.slice cd.rq 0 cd.rqSize ++ bytes) cd.httpRq cd.rqSize =
          parse at h ⊢
        obtain ⟨answer, rq⟩ := parse
        cases answer with
        | invalid => exact Or.inr ⟨⟨_, rfl⟩, rfl⟩
        | overrun => exact absurd h (by simp)
        | incomplete =>
          simp only at h ⊢
          split_ifs at h ⊢
          · exact Or.inr ⟨⟨_, rfl⟩, trivial⟩
          · exact False.elim h
        | parsed consumed =>
          simp only at h ⊢
          split_ifs at h ⊢
          · exact Or.inr ⟨⟨_, rfl⟩, rfl⟩
          · exact Or.inl ⟨rq, rq, rfl, rfl, rfl, rfl⟩
          · exact False.elim h

/-- The piece that ends the connection completes a request, and one that is answered. -/
def Answered (env : Env) (cd : ClientData) (rs : List RecvResult) : Prop :=
  ∃ cd' bytes rq, closingEvent cd rs = some (cd', .data bytes) ∧ completed cd' bytes = some rq ∧
    ¬ Unanswered rq env

/-- **A connection the server closes got a status line exactly when it was answered.** -/
theorem statusLine_sent_iff {sc : ServerConf} {cd : ClientData} {rs : List RecvResult} {env : Env}
    (hall : ∀ n, env.send n = .all) (hclosed : ClosedByServer cd rs) :
    (∃ status, statusLine status <+: (connection sc cd rs ⟨env, []⟩).2.sent) ↔
      Answered env cd rs := by
  obtain ⟨cd', r, hevent, hcloses⟩ := hclosed
  rcases connection_of_closingEvent sc cd rs ⟨env, []⟩ with
    ⟨hnone, -⟩ | ⟨cd₁, r₁, hevent₁, houtcome, hworld⟩
  · exact absurd (hnone.symm.trans hevent) (by simp)
  obtain ⟨rfl, rfl⟩ := Prod.mk.inj (Option.some.inj (hevent.symm.trans hevent₁))
  -- where no request is handed on nothing is sent
  have hsilent : ∀ cause, clientIo cd' r = .close cause →
      ¬ ∃ status, statusLine status <+: (connection sc cd rs ⟨env, []⟩).2.sent := by
    rintro cause hio ⟨status, h⟩
    rw [hworld, hio] at h
    exact ne_nil_of_statusLine h rfl
  rcases clientIo_closesItself hcloses with ⟨rfl, hlen⟩ | ⟨bytes, rfl, hkind⟩
  · refine iff_of_false (hsilent .byPeer rfl) ?_
    rintro ⟨cd₁, bytes, rq, heq, -⟩
    simp [hevent] at heq
  · have hanswered : Answered env cd rs ↔
        ∃ rq, completed cd' bytes = some rq ∧ ¬ Unanswered rq env := by
      unfold Answered
      rw [hevent]
      constructor
      · rintro ⟨cd₁, bytes₁, rq, heq, hrest⟩
        obtain ⟨rfl, hdata⟩ := Prod.mk.inj (Option.some.inj heq)
        obtain rfl := RecvResult.data.inj hdata
        exact ⟨rq, hrest⟩
      · rintro ⟨rq, hrest⟩
        exact ⟨cd', bytes, rq, rfl, hrest⟩
    rw [hanswered]
    rcases hkind with ⟨rq, rq', hio, hcompleted, hmethod, hurl⟩ | ⟨⟨cause, hio⟩, hcompleted⟩
    · rw [hio] at houtcome
      rw [sent_of_dispatch houtcome, plan_congr sc env hmethod hurl,
        statusLine_delivered_iff hall (plan_wellFormed sc rq env), plan_eq_silent_iff, hcompleted]
      simp
    · exact iff_of_false (hsilent cause hio) (by simp [hcompleted])

theorem closedByServer_one {cd : ClientData} {r : RecvResult} (h : ClosesItself cd r) :
    ClosedByServer cd [r] := by
  refine ⟨cd, r, ?_, h⟩
  unfold ClosesItself at h
  unfold closingEvent
  cases hio : clientIo cd r with
  | keep cd' => simp [hio] at h
  | close | dispatch | corrupt => rfl

theorem fileEvents_closedByServer : ClosedByServer (newClient 7) fileEvents :=
  closedByServer_one trivial

theorem fileEvents_answered :
    ClosedByServer (newClient 7) fileEvents ∧ Answered roomyEnv (newClient 7) fileEvents := by
  refine ⟨fileEvents_closedByServer, ?_⟩
  rw [← @statusLine_sent_iff sampleConf (newClient 7) fileEvents roomyEnv (fun _ => rfl)
    fileEvents_closedByServer]
  exact ⟨.ok, by decide +kernel⟩

/-- A form posted to a path that is not a script. -/
def postEvents : List RecvResult := [.data (ascii "POST /a.txt HTTP/1.1\r\n\r\n")]

theorem postEvents_silent :
    ClosedByServer (newClient 7) postEvents ∧ (∀ n, roomyEnv.send n = .all) ∧
      ¬ ∃ status, statusLine status <+:
        (connection sampleConf (newClient 7) postEvents ⟨roomyEnv, []⟩).2.sent := by
  refine ⟨closedByServer_one trivial, fun _ => rfl, ?_⟩
  have hsent : (connection sampleConf (newClient 7) postEvents ⟨roomyEnv, []⟩).2.sent = [] := by
    decide +kernel
  rintro ⟨status, h⟩
  rw [hsent] at h
  exact ne_nil_of_statusLine h rfl

/-- The client, if it is kept. -/
def ClientOutcome.kept : ClientOutcome → Option ClientData
  | .keep cd => some cd
  | _ => none

theorem ClientOutcome.kept_eq_some {o : ClientOutcome} {cd : ClientData} :
    o.kept = some cd ↔ o = .keep cd := by
  cases o <;> simp [kept]

/-- A header block of 192 bytes that declares a body of 7000. -/
def longForm : Bytes :=
  ascii "POST /a.py HTTP/1.1\r\nContent-Length: 7000\r\nX: " ++ List.replicate 142 97 ++
    ascii "\r\n\r\n"

/-- The header block and 4000 bytes of the body. -/
def longEvents : List RecvResult := [.data longForm, .data (List.replicate 4000 97), .closed]

/-- The bytes of the body are counted twice, `rq_size` is 8192, and the server closes a connection
on which 3000 bytes are still to come. -/
theorem longEvents_unanswered :
    ClosedByServer (newClient 7) longEvents ∧ ∀ env, ¬ Answered env (newClient 7) longEvents := by
  have hheaders : ∃ cd, clientIo (newClient 7) (.data longForm) = .keep cd ∧
      cd.state = .readingBody ∧ cd.rqSize = 192 ∧ cd.bodyLen = 7000 := by
    have hread : (clientIo (newClient 7) (.data longForm)).kept.map
        (fun cd => (cd.state, cd.rqSize, cd.bodyLen)) = some (.readingBody, 192, 7000) := by
      decide +kernel
    obtain ⟨cd, hkept, hvals⟩ := Option.map_eq_some_iff.mp hread
    simp only [Prod.mk.injEq] at hvals
    exact ⟨cd, ClientOutcome.kept_eq_some.mp hkept, hvals⟩
  obtain ⟨cd, hio, hstate, hsize, hlen⟩ := hheaders
  have hbody : (List.replicate 4000 (97 : UInt8)).length = 4000 := List.length_replicate
  obtain ⟨cd', hio', hfull⟩ : ∃ cd', clientIo cd (.data (List.replicate 4000 97)) = .keep cd' ∧
      cd'.recvLen = 0 := by
    have hopen : bodyCompleted 4192 7000 = false := by decide
    simp only [clientIo, hsize, hbody, hstate, readBody, hlen]
    exact ⟨_, by rw [if_neg (by decide), if_neg (by simpa using hopen)], rfl⟩
  have hevent : closingEvent (newClient 7) longEvents = some (cd', .closed) := by
    simp only [longEvents, closingEvent, hio, hio']
    rfl
  refine ⟨⟨cd', .closed, hevent, hfull⟩, ?_⟩
  rintro env ⟨cd₁, bytes, rq, heq, -⟩
  simp [hevent] at heq

end Epoll
end BareHttp
