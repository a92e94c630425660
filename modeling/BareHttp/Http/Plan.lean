import BareHttp.Http.Process

/-!
# Deciding and delivering

Answering a request has two halves.  First the request, the configuration and the
results of the file, pipe, fork and read calls select what is to be sent; then the
bytes go to the socket.  In the source the halves are interleaved over five
functions and about twenty returns.  Here they are separated: `plan` is a pure
function that says which response is selected, `deliver` performs the socket calls
for it, and `httpProcessRequest_eq_deliver` says that `http_process_request` is the
one followed by the other, with the socket untouched in between.

What a client receives depends on the plan and on the results of `send` and
`sendfile` alone, so everything about partial, missing or doubled responses is a
statement about `deliver`.
-/

namespace BareHttp

/-- What a request is answered with.  `silent` sends nothing; `page` is an error page
with the value then returned, which is that of `http_send_error` itself for
`none`. -/
inductive Plan where
  | silent (ret : Int)
  | page (status : HttpStatus) (ret : Option Int)
  | options (header : Bytes)
  | file (header path : Bytes)
  | script (header output : Bytes)
  deriving DecidableEq

/-- The output of a script as the results of `read` give it. -/
def collectOutput : ℕ → Bytes → (ℕ → Option (UInt8 × Bytes)) → Option Bytes
  | 0, _, _ => none
  | fuel + 1, out, reads =>
    if maxBuffr ≤ out.length then none
    else
      match reads 0 with
      | none => some out
      | some (b, bs) =>
        collectOutput fuel (out ++ (b :: bs).take (maxBuffr - out.length)) (tail reads)

/-- The plan for the collected output of a script. -/
def outputPlan (sc : ServerConf) (out : Bytes) : Option Bytes → Plan
  | none => .page .internalError (some (-1))
  | some date =>
    match serializeResponse (scriptResponse sc date out.length) maxBuffr with
    | none => .page .internalError (some 0)
    | some header => .script header out

/-- The plan for a script that opens. -/
def runPlan (sc : ServerConf) (env : Env) : Plan :=
  if env.pipe 0 = none ∨ env.pipe 1 = none ∨ env.fork 0 = none then .silent (-1)
  else
    match collectOutput (maxBuffr + 1) [] env.read with
    | none => .silent (-1)
    | some out => outputPlan sc out (env.strftime 0)

/-- The plan for a script. -/
def scriptPlan (sc : ServerConf) (env : Env) : Plan :=
  match env.openat2 0 with
  | .error .enoent => .page .notFound (some 0)
  | .error .eacces => .page .notAllowed (some 0)
  | .error .eloop => .page .notAllowed (some 0)
  | .error _ => .silent (-1)
  | .ok _ => runPlan sc env

/-- The plan for a path that is not a script. -/
def filePlan (sc : ServerConf) (path : Bytes) (env : Env) : Plan :=
  match env.openat2 0 with
  | .error .enoent => .page .notFound (some 0)
  | .error .eacces => .page .forbidden (some 0)
  | .error .eloop => .page .forbidden (some 0)
  | .error _ => .silent (-1)
  | .ok _ =>
    match env.fstat 0 with
    | none => .silent (-1)
    | some st =>
      match env.strftime 0, env.strftime 1 with
      | some date, some lastMod =>
        let response := fileResponse sc date lastMod (CInt.toInt32 st.stSize) (getMimeType path)
        match serializeResponse response maxBuffr with
        | none => .page .internalError (some 0)
        | some header => .file header path
      | _, _ => .page .internalError (some 0)

/-- The header block of the answer to `OPTIONS`. -/
def optionsHeader : Bytes :=
  statusLine .noContent ++ headerLine (ascii "Allow", ascii "GET, POST, OPTIONS") ++
    headerLine (ascii "Content-Length", ascii "0") ++ crlf

/-- **Which response a request is answered with.** -/
def plan (sc : ServerConf) (request : HttpRequest) (env : Env) : Plan :=
  match requestMethodType request.method with
  | .unknown => .page .notAllowed none
  | .options => .options optionsHeader
  | method =>
    if checkPathTraversal request.url then .page .forbidden (some 0)
    else
      match buildPath (urlPath request.url) with
      | none => .page .badRequest (some 0)
      | some path =>
        if isScript path then scriptPlan sc env
        else if method = .get then filePlan sc path env
        else .silent 0

/-- The body does not take part in the decision. -/
theorem plan_congr (sc : ServerConf) {request request' : HttpRequest} (env : Env)
    (hmethod : request.method = request'.method) (hurl : request.url = request'.url) :
    plan sc request env = plan sc request' env := by
  unfold plan
  rw [hmethod, hurl]

/-- The socket calls for a plan, and the return value of `http_process_request`. -/
def deliver : Plan → World → Int × World
  | .silent ret, w => (ret, w)
  | .page status ret, w =>
    let (r, w) := httpSendError status w
    (ret.getD r, w)
  | .options header, w =>
    let (r, w) := tcpSend header w
    (if r < 0 then -1 else 0, w)
  | .file header path, w =>
    let (r, w) := tcpSend header w
    if r < 0 then (0, (httpSendError .internalError w).2)
    else
      let (r, w) := sendFile path w
      (if r < 0 then -1 else 0, w)
  | .script header output, w =>
    let (r, w) := tcpSend header w
    if r < 0 then (-1, w)
    else
      let (r, w) := tcpSend output w
      (if r < 0 then -1 else 0, w)

/-- The header block of a plan starts with a status line. -/
def Plan.WellFormed : Plan → Prop
  | .silent _ => True
  | .page _ _ => True
  | .options header => statusLine .noContent <+: header
  | .file header _ => statusLine .ok <+: header
  | .script header _ => statusLine .ok <+: header

theorem outputPlan_wellFormed (sc : ServerConf) (out : Bytes) (date : Option Bytes) :
    (outputPlan sc out date).WellFormed := by
  cases date with
  | none => exact trivial
  | some date =>
    simp only [outputPlan]
    cases hser : serializeResponse (scriptResponse sc date out.length) maxBuffr with
    | none => exact trivial
    | some header =>
      have h := statusLine_prefix_of_serializeResponse hser
      rwa [status_scriptResponse] at h

theorem scriptPlan_wellFormed (sc : ServerConf) (env : Env) : (scriptPlan sc env).WellFormed := by
  unfold scriptPlan runPlan
  repeat' split
  any_goals exact trivial
  exact outputPlan_wellFormed sc _ _

theorem filePlan_wellFormed (sc : ServerConf) (path : Bytes) (env : Env) :
    (filePlan sc path env).WellFormed := by
  unfold filePlan
  cases env.openat2 0 with
  | error e => cases e <;> exact trivial
  | ok f =>
    cases env.fstat 0 with
    | none => exact trivial
    | some st =>
      cases env.strftime 0 with
      | none => exact trivial
      | some date =>
        cases env.strftime 1 with
        | none => exact trivial
        | some lastMod =>
          simp only
          cases hser : serializeResponse (fileResponse sc date lastMod (CInt.toInt32 st.stSize)
            (getMimeType path)) maxBuffr with
          | none => exact trivial
          | some header =>
            have h := statusLine_prefix_of_serializeResponse hser
            rwa [status_fileResponse] at h

theorem plan_wellFormed (sc : ServerConf) (request : HttpRequest) (env : Env) :
    (plan sc request env).WellFormed := by
  have hoptions : statusLine .noContent <+: optionsHeader := by
    simp only [optionsHeader, List.append_assoc]
    exact List.prefix_append _ _
  unfold plan
  repeat' split
  any_goals exact trivial
  · exact hoptions
  · exact scriptPlan_wellFormed sc env
  · exact filePlan_wellFormed sc _ env

/-! ## Calls that leave the socket alone -/

/-- Nothing was sent between `w` and `w'`. -/
structure SocketUntouched (w w' : World) : Prop where
  send_eq : w'.env.send = w.env.send
  sendfile_eq : w'.env.sendfile = w.env.sendfile
  sent_eq : w'.sent = w.sent

namespace SocketUntouched

theorem refl (w : World) : SocketUntouched w w := ⟨rfl, rfl, rfl⟩

theorem trans {w₁ w₂ w₃ : World} (h : SocketUntouched w₁ w₂) (h' : SocketUntouched w₂ w₃) :
    SocketUntouched w₁ w₃ :=
  ⟨h'.send_eq.trans h.send_eq, h'.sendfile_eq.trans h.sendfile_eq, h'.sent_eq.trans h.sent_eq⟩

/-- Two worlds with the same results of the socket calls, and one more call that
moves no bytes. -/
theorem log {w w' : World} {e : Event} (hsend : w'.env.send = w.env.send)
    (hsendfile : w'.env.sendfile = w.env.sendfile) (htrace : w'.trace = w.trace)
    (he : acceptedBytes [e] = []) : SocketUntouched w (w'.log e) := by
  refine ⟨hsend, hsendfile, ?_⟩
  rw [World.sent_log, he, List.append_nil, World.sent, htrace, World.sent]

theorem close (w : World) (fd : ℕ) : SocketUntouched w (w.close fd) := log rfl rfl rfl rfl

end SocketUntouched

/-! ## What the calls answer

One statement for each call: its result from the sequence of results, the
sequences left, and that the socket is untouched. -/

theorem openSafe_spec (path : Bytes) (w : World) :
    ∃ w', openSafe path w = (w.env.openat2 0, w') ∧
      w'.env = { w.env with openat2 := tail w.env.openat2 } ∧ SocketUntouched w w' := by
  unfold openSafe
  cases w.env.openat2 0 with
  | ok f => exact ⟨_, rfl, rfl, .log rfl rfl rfl rfl⟩
  | error e => exact ⟨_, rfl, rfl, .log rfl rfl rfl rfl⟩

theorem pipe_spec (w : World) :
    ∃ w', pipe w = (w.env.pipe 0, w') ∧
      w'.env = { w.env with pipe := tail w.env.pipe } ∧ SocketUntouched w w' := by
  unfold pipe
  cases w.env.pipe 0 with
  | some ends => exact ⟨_, rfl, rfl, .log rfl rfl rfl rfl⟩
  | none => exact ⟨_, rfl, rfl, ⟨rfl, rfl, rfl⟩⟩

theorem fork_spec (w : World) :
    ∃ w', fork w = (w.env.fork 0, w') ∧
      w'.env = { w.env with fork := tail w.env.fork } ∧ SocketUntouched w w' := by
  unfold fork
  cases w.env.fork 0 with
  | some pid => exact ⟨_, rfl, rfl, .log rfl rfl rfl rfl⟩
  | none => exact ⟨_, rfl, rfl, ⟨rfl, rfl, rfl⟩⟩

theorem strftime_spec (w : World) :
    ∃ w', strftime w = (w.env.strftime 0, w') ∧
      w'.env = { w.env with strftime := tail w.env.strftime } ∧ SocketUntouched w w' :=
  ⟨_, rfl, rfl, ⟨rfl, rfl, rfl⟩⟩

theorem fstat_spec (w : World) :
    ∃ w', fstat w = (w.env.fstat 0, w') ∧
      w'.env = { w.env with fstat := tail w.env.fstat } ∧ SocketUntouched w w' :=
  ⟨_, rfl, rfl, ⟨rfl, rfl, rfl⟩⟩

/-- Writing the arguments consumes results of `write` and nothing else. -/
theorem writeArgs_spec (fd : ℕ) (args : Option Bytes) (fuel left : ℕ) (w : World) :
    ∃ writes, (writeArgs fd args fuel left w).env = { w.env with write := writes } ∧
      SocketUntouched w (writeArgs fd args fuel left w) := by
  induction fuel generalizing args left w with
  | zero => exact ⟨w.env.write, rfl, .refl w⟩
  | succ fuel ih =>
    simp only [writeArgs]
    split_ifs
    · exact ⟨w.env.write, rfl, .refl w⟩
    · cases w.env.write 0 with
      | none => exact ⟨tail w.env.write, rfl, ⟨rfl, rfl, rfl⟩⟩
      | some n =>
        obtain ⟨writes, henv, hu⟩ := ih (args.map (·.drop (min (n + 1) left)))
          (left - min (n + 1) left)
          (World.log { w with env := { w.env with write := tail w.env.write } }
            (.write fd (args.map (·.take (min (n + 1) left)))))
        refine ⟨writes, henv, SocketUntouched.trans ?_ hu⟩
        exact .log rfl rfl rfl rfl

/-- Collecting the output consumes results of `read` and nothing else. -/
theorem readOutput_spec (fd fuel : ℕ) (out : Bytes) (w : World) :
    ∃ w' reads, readOutput fd fuel out w = (collectOutput fuel out w.env.read, w') ∧
      w'.env = { w.env with read := reads } ∧ SocketUntouched w w' := by
  induction fuel generalizing out w with
  | zero => exact ⟨w, w.env.read, rfl, rfl, .refl w⟩
  | succ fuel ih =>
    simp only [readOutput, collectOutput]
    split_ifs
    · exact ⟨w, w.env.read, rfl, rfl, .refl w⟩
    · cases w.env.read 0 with
      | none => exact ⟨_, tail w.env.read, rfl, rfl, ⟨rfl, rfl, rfl⟩⟩
      | some p =>
        obtain ⟨w', reads, hread, henv, hu⟩ := ih (out ++ (p.1 :: p.2).take (maxBuffr - out.length))
          (World.log { w with env := { w.env with read := tail w.env.read } }
            (.read fd ((p.1 :: p.2).take (maxBuffr - out.length))))
        refine ⟨w', reads, hread, henv, SocketUntouched.trans ?_ hu⟩
        exact .log rfl rfl rfl rfl

/-! ## `http_process_request` is its plan, delivered -/

theorem sendScriptOutput_eq_deliver (sc : ServerConf) (out : Bytes) (w : World) :
    sendScriptOutput sc out w = deliver (outputPlan sc out (w.env.strftime 0)) (strftime w).2 := by
  have hdate : w.env.strftime 0 = (strftime w).1 := rfl
  rw [hdate]
  unfold sendScriptOutput
  obtain ⟨date, w'⟩ := strftime w
  cases date with
  | none => rfl
  | some date =>
    simp only [outputPlan]
    cases serializeResponse (scriptResponse sc date out.length) maxBuffr with
    | none => rfl
    | some header =>
      simp only [deliver]
      by_cases h : (tcpSend header w').1 < 0
      · rw [if_pos h, if_pos h]
      · rw [if_neg h, if_neg h]
        split_ifs <;> rfl

/-- The return value of `deliver` for a plan that is not a page of
`http_process_request` itself. -/
theorem deliver_runPlan_fst (sc : ServerConf) (env : Env) (w : World) :
    (deliver (runPlan sc env) w).1 = 0 ∨ (deliver (runPlan sc env) w).1 = -1 := by
  unfold runPlan
  split_ifs
  · exact .inr rfl
  · cases collectOutput (maxBuffr + 1) [] env.read with
    | none => exact .inr rfl
    | some out =>
      simp only
      unfold outputPlan
      cases env.strftime 0 with
      | none => exact .inr rfl
      | some date =>
        simp only
        cases serializeResponse (scriptResponse sc date out.length) maxBuffr with
        | none => exact .inl rfl
        | some header =>
          simp only [deliver]
          split_ifs
          · exact .inr rfl
          · exact .inr rfl
          · exact .inl rfl

/-- A script that opens: the pipes, the child and its output come before the socket. -/
theorem runScript_eq_deliver (sc : ServerConf) (args : Body) (path : Bytes) (w : World) :
    ∃ w', SocketUntouched w w' ∧ runScript sc args path w = deliver (runPlan sc w.env) w' := by
  obtain ⟨w₁, hopen, henv₁, hu₁⟩ := openSafe_spec path w
  obtain ⟨w₂, hin, henv₂, hu₂⟩ := pipe_spec w₁
  obtain ⟨w₃, hout, henv₃, hu₃⟩ := pipe_spec w₂
  obtain ⟨w₄, hfork, henv₄, hu₄⟩ := fork_spec w₃
  simp only [henv₁, henv₂, henv₃, tail_apply, Nat.zero_add] at hin hout hfork henv₂ henv₃ henv₄
  replace hu₂ := hu₁.trans hu₂
  replace hu₃ := hu₂.trans hu₃
  replace hu₄ := hu₃.trans hu₄
  unfold runScript runPlan
  simp only [hopen, hin]
  cases hp₀ : w.env.pipe 0 with
  | none => exact ⟨w₂, hu₂, by simp [deliver]⟩
  | some inpipe =>
    simp only [hout]
    cases hp₁ : w.env.pipe 1 with
    | none =>
      exact ⟨_, (hu₃.trans (.close w₃ inpipe.1)).trans (.close _ inpipe.2), by simp [deliver]⟩
    | some outpipe =>
      simp only [hfork]
      cases hf : w.env.fork 0 with
      | none =>
        have hu := (hu₄.trans (.close w₄ inpipe.1)).trans (.close _ inpipe.2)
        exact ⟨_, (hu.trans (.close _ outpipe.1)).trans (.close _ outpipe.2), by simp [deliver]⟩
      | some pid =>
        have hu₅ := (hu₄.trans (.close w₄ inpipe.1)).trans (.close _ outpipe.2)
        obtain ⟨writes, henv₅, hu₆⟩ := writeArgs_spec inpipe.2 args.bytes args.size.toNat
          args.size.toNat ((w₄.close inpipe.1).close outpipe.2)
        replace hu₆ := (hu₅.trans hu₆).trans (.close _ inpipe.2)
        obtain ⟨w₇, reads, hread, henv₇, hu₇⟩ := readOutput_spec outpipe.1 (maxBuffr + 1) []
          ((writeArgs inpipe.2 args.bytes args.size.toNat args.size.toNat
            ((w₄.close inpipe.1).close outpipe.2)).close inpipe.2)
        have hu₈ : SocketUntouched w ((w₇.close outpipe.1).log (.waitpid pid)) :=
          ((hu₆.trans hu₇).trans (.close w₇ outpipe.1)).trans (.log rfl rfl rfl rfl)
        simp only [World.env_close, henv₅, henv₄] at hread henv₇
        simp only [hread, reduceCtorEq, or_self, if_false]
        cases collectOutput (maxBuffr + 1) [] w.env.read with
        | none => exact ⟨_, hu₈, rfl⟩
        | some out =>
          refine ⟨(strftime ((w₇.close outpipe.1).log (.waitpid pid))).2,
            hu₈.trans ⟨rfl, rfl, rfl⟩, ?_⟩
          simp only [sendScriptOutput_eq_deliver, World.env_log, World.env_close, henv₇]

/-- A script's answer: `process_script` returns `-2` behind the pages that
`http_process_request` reports as `0`. -/
theorem processScript_eq_deliver (sc : ServerConf) (args : Body) (path : Bytes) (w : World) :
    ∃ w', SocketUntouched w w' ∧
      (processScript sc args path w).2 = (deliver (scriptPlan sc w.env) w').2 ∧
      ((processScript sc args path w).1 = -2 ∧ (deliver (scriptPlan sc w.env) w').1 = 0 ∨
        (processScript sc args path w).1 = (deliver (scriptPlan sc w.env) w').1 ∧
          ((processScript sc args path w).1 = 0 ∨ (processScript sc args path w).1 = -1)) := by
  obtain ⟨w₁, hopen, henv, hu⟩ := openSafe_spec path w
  unfold processScript getFileExists scriptPlan
  simp only [hopen]
  cases w.env.openat2 0 with
  | error e =>
    refine ⟨w₁, hu, ?_⟩
    cases e with
    | enoent | eacces | eloop => exact ⟨rfl, .inl ⟨rfl, rfl⟩⟩
    | eagain | epipe | other => exact ⟨rfl, .inr ⟨rfl, .inr rfl⟩⟩
  | ok f =>
    obtain ⟨w', hu', hrun⟩ := runScript_eq_deliver sc args path (w₁.close f.fd)
    have hplan : runPlan sc (w₁.close f.fd).env = runPlan sc w.env := by
      rw [World.env_close, henv]
      rfl
    rw [hplan] at hrun
    refine ⟨w', (hu.trans (SocketUntouched.close w₁ f.fd)).trans hu', congrArg Prod.snd hrun,
      .inr ⟨congrArg Prod.fst hrun, ?_⟩⟩
    have hret := deliver_runPlan_fst sc w.env w'
    rw [← hrun] at hret
    exact hret

theorem scriptPlan_ne_file (sc : ServerConf) (env : Env) (header path : Bytes) :
    scriptPlan sc env ≠ .file header path := by
  unfold scriptPlan runPlan outputPlan
  repeat' split
  all_goals simp

/-- The answer to `OPTIONS` fits its buffer, so the branch for a longer one is dead. -/
theorem processOptions_eq_deliver (w : World) :
    processOptions w = deliver (.options optionsHeader) w := by
  have hser : serializeResponse
      (addHeader (addHeader ⟨.noContent, []⟩ (ascii "Allow") (ascii "GET, POST, OPTIONS"))
        (ascii "Content-Length") (ascii "0")) maxBuffr = some optionsHeader := by
    decide +kernel
  unfold processOptions
  simp only [hser, deliver]
  split_ifs <;> rfl

/-- A path that is not a script: the file is looked at, then the header goes out, then
the file is opened a second time. -/
theorem serveFile_eq_deliver (sc : ServerConf) (path : Bytes) (w : World) :
    ∃ w', SocketUntouched w w' ∧ serveFile sc path w = deliver (filePlan sc path w.env) w' ∧
      ∀ header path', filePlan sc path w.env = .file header path' →
        w'.env.openat2 = tail w.env.openat2 ∧ w'.env.fstat = tail w.env.fstat := by
  obtain ⟨w₁, hopen, henv₁, hu₁⟩ := openSafe_spec path w
  obtain ⟨w₂, hstat, henv₂, hu₂⟩ := fstat_spec w₁
  simp only [henv₁] at hstat henv₂
  replace hu₂ := hu₁.trans hu₂
  unfold serveFile getFileInfo filePlan
  simp only [hopen]
  cases w.env.openat2 0 with
  | error e =>
    refine ⟨w₁, hu₁, ?_⟩
    cases e with
    | enoent | eacces | eloop => exact ⟨rfl, by simp⟩
    | eagain | epipe | other => exact ⟨rfl, by simp⟩
  | ok f =>
    simp only [hstat]
    cases w.env.fstat 0 with
    | none => exact ⟨_, hu₂.trans (.close w₂ f.fd), rfl, by simp⟩
    | some st =>
      obtain ⟨w₃, hdate, henv₃, hu₃⟩ := strftime_spec (w₂.close f.fd)
      obtain ⟨w₄, hmod, henv₄, hu₄⟩ := strftime_spec w₃
      replace hu₃ := (hu₂.trans (.close w₂ f.fd)).trans hu₃
      replace hu₄ := hu₃.trans hu₄
      simp only [World.env_close, henv₂] at hdate henv₃
      simp only [henv₃, tail_apply, Nat.zero_add] at hmod henv₄
      have h₂ : ¬(0 : Int) = -2 := by decide
      have h₃ : ¬(0 : Int) = -3 := by decide
      simp only [if_neg h₂, if_neg h₃, hdate]
      cases w.env.strftime 0 with
      | none => exact ⟨w₃, hu₃, rfl, by simp⟩
      | some date =>
        simp only [hmod]
        refine ⟨w₄, hu₄, ?_, fun _ _ _ => by simp only [henv₄, and_self]⟩
        cases w.env.strftime 1 with
        | none => rfl
        | some lastMod =>
          simp only
          cases serializeResponse (fileResponse sc date lastMod (CInt.toInt32 st.stSize)
            (getMimeType path)) maxBuffr with
          | none => rfl
          | some header =>
            simp only [deliver]
            by_cases h : (tcpSend header w₄).1 < 0
            · rw [if_pos h, if_pos h]
            · rw [if_neg h, if_neg h]
              split_ifs <;> rfl

/-- **`http_process_request` is its plan, delivered.**  Up to the first socket call the
socket is untouched, and a file that is to be sent has been opened once. -/
theorem httpProcessRequest_eq_deliver (sc : ServerConf) (request : HttpRequest) (w : World) :
    ∃ w', SocketUntouched w w' ∧
      httpProcessRequest sc request w = deliver (plan sc request w.env) w' ∧
      ∀ header path, plan sc request w.env = .file header path →
        w'.env.openat2 = tail w.env.openat2 ∧ w'.env.fstat = tail w.env.fstat := by
  unfold httpProcessRequest plan
  cases requestMethodType request.method with
  | unknown => exact ⟨w, .refl w, by simp only [deliver, Option.getD_none], by simp⟩
  | options => exact ⟨w, .refl w, processOptions_eq_deliver w, by simp⟩
  | get =>
    simp only [processGet, if_true]
    split_ifs with htrav
    · exact ⟨w, .refl w, rfl, by simp⟩
    · cases buildPath (urlPath request.url) with
      | none => exact ⟨w, .refl w, rfl, by simp⟩
      | some path =>
        by_cases hscript : isScript path = true
        · simp only [if_pos hscript]
          obtain ⟨w', hu, hw, hret⟩ := processScript_eq_deliver sc
            ⟨(urlQuery request.url).length, some (urlQuery request.url)⟩ path w
          refine ⟨w', hu, ?_, fun _ _ h => absurd h (scriptPlan_ne_file sc w.env _ _)⟩
          rcases hret with ⟨hr, hd⟩ | ⟨hd, hr⟩
          · rw [if_pos hr, hw, ← hd]
          · have hne : ¬(processScript sc ⟨(urlQuery request.url).length,
                some (urlQuery request.url)⟩ path w).1 = -2 := by
              rcases hr with hr | hr <;> rw [hr] <;> decide
            rw [if_neg hne, hw, hd]
        · simp only [if_neg hscript]
          exact serveFile_eq_deliver sc path w
  | post =>
    simp only [processPost, reduceCtorEq, if_false]
    split_ifs with htrav
    · exact ⟨w, .refl w, rfl, by simp⟩
    · cases buildPath (urlPath request.url) with
      | none => exact ⟨w, .refl w, rfl, by simp⟩
      | some path =>
        by_cases hscript : isScript path = true
        · simp only [if_pos hscript]
          obtain ⟨w', hu, hw, hret⟩ := processScript_eq_deliver sc request.body path w
          refine ⟨w', hu, ?_, fun _ _ h => absurd h (scriptPlan_ne_file sc w.env _ _)⟩
          rcases hret with ⟨hr, hd⟩ | ⟨hd, hr | hr⟩
          · rw [if_neg (by rw [hr]; decide), hw, ← hd]
          · rw [if_neg (by rw [hr]; decide), hw, ← hr, hd]
          · rw [if_pos hr, hw, ← hr, hd]
        · simp only [if_neg hscript]
          exact ⟨w, .refl w, rfl, by simp⟩

end BareHttp
