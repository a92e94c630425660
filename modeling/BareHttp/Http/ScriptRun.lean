import BareHttp.Http.Delivery

/-!
# The run of a script

`process_script` looks whether the script can be opened, opens it a second time, starts an
interpreter between two pipes, writes the arguments, collects the output and sends it.  The
calls it makes are known up to the loop that writes the arguments (`runScript_of_started`);
behind it comes `finishScript`, which writes nothing and starts nothing.

The interpreter is told to read `/proc/self/fd/N`, where `N` is what the second open returned.
Only the first one is tested.  Where the second one fails, the interpreter is started on a
descriptor that does not exist, and what it prints about that is sent with status 200;
`openedFirst_iff` says that this is the only way to get there.
-/

namespace BareHttp

/-! ## The calls between two worlds -/

/-- From `w` to `w'` the calls made all satisfy `P`. -/
def Adds (P : Event → Prop) (w w' : World) : Prop :=
  ∃ es, w'.trace = w.trace ++ es ∧ ∀ e ∈ es, P e

namespace Adds

variable {P Q : Event → Prop} {w w₁ w₂ : World}

/-- A call that is not recorded. -/
theorem quiet (htrace : w₁.trace = w.trace) : Adds P w w₁ :=
  ⟨[], by rw [htrace, List.append_nil], by simp⟩

theorem refl (w : World) : Adds P w w := quiet rfl

theorem trans (h₁ : Adds P w w₁) (h₂ : Adds P w₁ w₂) : Adds P w w₂ := by
  obtain ⟨es, hes, hP⟩ := h₁
  obtain ⟨fs, hfs, hP'⟩ := h₂
  refine ⟨es ++ fs, by rw [hfs, hes, List.append_assoc], fun e he => ?_⟩
  exact (List.mem_append.mp he).elim (hP e) (hP' e)

/-- One call. -/
theorem log {e : Event} (htrace : w₁.trace = w.trace) (he : P e) : Adds P w (w₁.log e) :=
  ⟨[e], by simp [World.log, htrace], by simpa using he⟩

theorem mono (h : Adds P w w₁) (hPQ : ∀ e, P e → Q e) : Adds Q w w₁ := by
  obtain ⟨es, hes, hP⟩ := h
  exact ⟨es, hes, fun e he => hPQ e (hP e he)⟩

end Adds

/-- A call on the client's descriptor that hands over one of these buffers, or closes it. -/
def OnSocket (bufs : List Bytes) (e : Event) : Prop :=
  e = .shutdown ∨ ∃ buf ∈ bufs, ∃ accepted, e = .send buf accepted

theorem OnSocket.mono {bufs bufs' : List Bytes} {e : Event} (h : OnSocket bufs e)
    (hsub : bufs ⊆ bufs') : OnSocket bufs' e := by
  rcases h with h | ⟨buf, hmem, k, h⟩
  · exact .inl h
  · exact .inr ⟨buf, hsub hmem, k, h⟩

/-- **The calls of `tcp_send`**: one `send`, and what closes the descriptor if the peer is
gone. -/
theorem tcpSend_calls (buf : Bytes) (w : World) :
    ∃ accepted w', w'.trace = w.trace ++ [.send buf accepted] ∧
      Adds (OnSocket []) w' (tcpSend buf w).2 := by
  unfold tcpSend
  cases w.env.send 0 with
  | all => exact ⟨_, _, rfl, .refl _⟩
  | some n => exact ⟨_, _, rfl, .refl _⟩
  | fail e =>
    cases e with
    | epipe => exact ⟨0, World.log w (.send buf 0), rfl, .log rfl (.inl rfl)⟩
    | eacces | eloop | enoent | eagain | other => exact ⟨_, _, rfl, .refl _⟩

theorem tcpSend_adds (buf : Bytes) (w : World) : Adds (OnSocket [buf]) w (tcpSend buf w).2 := by
  obtain ⟨accepted, w', htrace, hadds⟩ := tcpSend_calls buf w
  have hsend : OnSocket [buf] (.send buf accepted) :=
    .inr ⟨buf, List.mem_singleton_self buf, accepted, rfl⟩
  have hfirst : Adds (OnSocket [buf]) w w' := ⟨_, htrace, by simpa using hsend⟩
  exact hfirst.trans (hadds.mono fun e he => he.mono (List.nil_subset _))

/-- **The calls for an error page.**  The first one hands over its header block. -/
theorem httpSendError_calls (status : HttpStatus) (w : World) :
    ∃ accepted w', w'.trace = w.trace ++ [.send (errorHeaders status) accepted] ∧
      Adds (OnSocket [errorBody status]) w' (httpSendError status w).2 := by
  obtain ⟨accepted, w', htrace, hadds⟩ := tcpSend_calls (errorHeaders status) w
  refine ⟨accepted, w', htrace, ?_⟩
  replace hadds := hadds.mono fun e he => he.mono (List.nil_subset [errorBody status])
  unfold httpSendError
  generalize tcpSend (errorHeaders status) w = p at hadds ⊢
  obtain ⟨ret, w₁⟩ := p
  by_cases hret : ret < 0
  · simpa [hret] using hadds
  · simpa [hret] using hadds.trans (tcpSend_adds (errorBody status) w₁)

theorem httpSendError_adds (status : HttpStatus) (w : World) :
    Adds (OnSocket [errorHeaders status, errorBody status]) w (httpSendError status w).2 := by
  obtain ⟨accepted, w', htrace, hadds⟩ := httpSendError_calls status w
  have hsend : OnSocket [errorHeaders status, errorBody status]
      (.send (errorHeaders status) accepted) := .inr ⟨_, List.mem_cons_self, accepted, rfl⟩
  have hfirst : Adds (OnSocket [errorHeaders status, errorBody status]) w w' :=
    ⟨_, htrace, by simpa using hsend⟩
  exact hfirst.trans (hadds.mono fun e he => he.mono (List.subset_cons_self _ _))

/-! ## Behind the arguments -/

/-- `process_script` behind the loop that writes the arguments. -/
def finishScript (sc : ServerConf) (inpipe outpipe : ℕ × ℕ) (pid : ℕ) (w : World) : Int × World :=
  let w := w.close inpipe.2
  let (out, w) := readOutput outpipe.1 (maxBuffr + 1) [] w
  let w := (w.close outpipe.1).log (.waitpid pid)
  match out with
  | none => (-1, w)
  | some out => sendScriptOutput sc out w

/-- A call of `finishScript` behind the first one. -/
def Finishing (e : Event) : Prop :=
  (∃ fd bytes, e = .read fd bytes) ∨ (∃ fd, e = .close fd) ∨ (∃ pid, e = .waitpid pid) ∨
    ∃ bufs, OnSocket bufs e

theorem readOutput_adds (fd fuel : ℕ) (out : Bytes) (w : World) :
    Adds (fun e => ∃ bytes, e = .read fd bytes) w (readOutput fd fuel out w).2 := by
  induction fuel generalizing out w with
  | zero => exact .refl w
  | succ fuel ih =>
    simp only [readOutput]
    split_ifs
    · exact .refl w
    · cases w.env.read 0 with
      | none => exact .quiet rfl
      | some p =>
        refine Adds.trans ?_ (ih _ _)
        exact .log rfl ⟨_, rfl⟩

theorem sendScriptOutput_adds (sc : ServerConf) (out : Bytes) (w : World) :
    Adds (fun e => ∃ bufs, OnSocket bufs e) w (sendScriptOutput sc out w).2 := by
  have hpage : ∀ w' : World, w'.trace = w.trace →
      Adds (fun e => ∃ bufs, OnSocket bufs e) w (httpSendError .internalError w').2 :=
    fun w' htrace => (Adds.quiet htrace).trans
      ((httpSendError_adds .internalError w').mono fun e he => ⟨_, he⟩)
  unfold sendScriptOutput
  cases hdate : w.env.strftime 0 with
  | none =>
    simp only [strftime, hdate]
    exact hpage _ rfl
  | some date =>
    simp only [strftime, hdate]
    cases serializeResponse (scriptResponse sc date out.length) maxBuffr with
    | none => exact hpage _ rfl
    | some header =>
      simp only
      have hheader := (tcpSend_adds header
        { w with env := { w.env with strftime := tail w.env.strftime } }).mono
          fun e he => (⟨_, he⟩ : ∃ bufs, OnSocket bufs e)
      replace hheader := (Adds.quiet (w := w) rfl).trans hheader
      generalize tcpSend header
        { w with env := { w.env with strftime := tail w.env.strftime } } = p at hheader ⊢
      obtain ⟨ret, w₁⟩ := p
      have hbody := hheader.trans ((tcpSend_adds out w₁).mono fun e he => ⟨_, he⟩)
      simp only
      split_ifs
      · exact hheader
      · exact hbody
      · exact hbody

/-- **Behind the arguments** the input is closed first, and nothing is written or started. -/
theorem finishScript_calls (sc : ServerConf) (inpipe outpipe : ℕ × ℕ) (pid : ℕ) (w : World) :
    Adds Finishing (w.close inpipe.2) (finishScript sc inpipe outpipe pid w).2 := by
  have hread := (readOutput_adds outpipe.1 (maxBuffr + 1) [] (w.close inpipe.2)).mono
    fun e ⟨bytes, he⟩ => (.inl ⟨_, bytes, he⟩ : Finishing e)
  simp only [finishScript]
  generalize readOutput outpipe.1 (maxBuffr + 1) [] (w.close inpipe.2) = p at hread ⊢
  obtain ⟨out, w₁⟩ := p
  have hwait : Adds Finishing (w.close inpipe.2) ((w₁.close outpipe.1).log (.waitpid pid)) :=
    (hread.trans (.log rfl (.inr (.inl ⟨_, rfl⟩)))).trans
      (.log rfl (.inr (.inr (.inl ⟨_, rfl⟩))))
  cases out with
  | none => exact hwait
  | some out =>
    exact hwait.trans ((sendScriptOutput_adds sc out _).mono fun e he => .inr (.inr (.inr he)))

/-! ## In front of it -/

/-- The descriptor an `open` returned. -/
def openedFd : Except Errno Opened → Option ℕ
  | .ok f => some f.fd
  | .error _ => none

/-- The world behind the second open, the pipes, the `fork` and the two `close`s of the ends that
belong to the child. -/
def startedWorld (path : Bytes) (inpipe outpipe : ℕ × ℕ) (pid : ℕ) (w : World) : World where
  env :=
    { w.env with
      openat2 := tail w.env.openat2
      pipe := tail (tail w.env.pipe)
      fork := tail w.env.fork }
  trace := w.trace ++
    [.openat2 path.tail? (openedFd (w.env.openat2 0)), .pipe inpipe, .pipe outpipe, .fork pid,
      .close inpipe.1, .close outpipe.2]

/-- **A script that is started**: up to the loop that writes its arguments. -/
theorem runScript_of_started (sc : ServerConf) (args : Body) (path : Bytes) {w : World}
    {inpipe outpipe : ℕ × ℕ} {pid : ℕ} (hin : w.env.pipe 0 = some inpipe)
    (hout : w.env.pipe 1 = some outpipe) (hfork : w.env.fork 0 = some pid) :
    runScript sc args path w =
      finishScript sc inpipe outpipe pid (writeArgs inpipe.2 args.bytes args.size.toNat
        args.size.toNat (startedWorld path inpipe outpipe pid w)) := by
  have hworld : ∀ fd : Option ℕ, openedFd (w.env.openat2 0) = fd →
      World.close (World.close (World.log (World.log (World.log (World.log
        ⟨(startedWorld path inpipe outpipe pid w).env, w.trace⟩ (.openat2 path.tail? fd))
          (.pipe inpipe)) (.pipe outpipe)) (.fork pid)) inpipe.1) outpipe.2 =
        startedWorld path inpipe outpipe pid w := by
    rintro fd rfl
    simp [World.close, World.log, startedWorld]
  cases hopen : w.env.openat2 0 with
  | ok f =>
    rw [← hworld (some f.fd) (by rw [hopen]; rfl)]
    simp only [runScript, openSafe, pipe, fork, hopen, hin, hout, hfork, World.log, tail_apply,
      Nat.zero_add]
    rfl
  | error e =>
    rw [← hworld none (by rw [hopen]; rfl)]
    simp only [runScript, openSafe, pipe, fork, hopen, hin, hout, hfork, World.log, tail_apply,
      Nat.zero_add]
    rfl

/-- The calls that are made before there is a child. -/
def Preparing (e : Event) : Prop :=
  (∃ path fd, e = .openat2 path fd) ∨ (∃ ends, e = .pipe ends) ∨ ∃ fd, e = .close fd

theorem openSafe_adds (path : Bytes) (w : World) : Adds Preparing w (openSafe path w).2 := by
  unfold openSafe
  cases w.env.openat2 0 with
  | ok f => exact .log rfl (.inl ⟨_, _, rfl⟩)
  | error e => exact .log rfl (.inl ⟨_, _, rfl⟩)

theorem pipe_adds (w : World) : Adds Preparing w (pipe w).2 := by
  unfold pipe
  cases w.env.pipe 0 with
  | some ends => exact .log rfl (.inr (.inl ⟨_, rfl⟩))
  | none => exact .quiet rfl

theorem close_adds (w : World) (fd : ℕ) : Adds Preparing w (w.close fd) :=
  .log rfl (.inr (.inr ⟨fd, rfl⟩))

/-- **A script that is not started**: there is no pipe or no child, and nothing is sent. -/
theorem runScript_of_not_started (sc : ServerConf) (args : Body) (path : Bytes) {w : World}
    (h : w.env.pipe 0 = none ∨ w.env.pipe 1 = none ∨ w.env.fork 0 = none) :
    (runScript sc args path w).1 = -1 ∧ Adds Preparing w (runScript sc args path w).2 := by
  have h₁ := openSafe_adds path w
  obtain ⟨w₁, hopen, henv₁, -⟩ := openSafe_spec path w
  rw [hopen] at h₁
  have h₂ := h₁.trans (pipe_adds w₁)
  obtain ⟨w₂, hin, henv₂, -⟩ := pipe_spec w₁
  rw [hin] at h₂
  have h₃ := h₂.trans (pipe_adds w₂)
  obtain ⟨w₃, hout, henv₃, -⟩ := pipe_spec w₂
  rw [hout] at h₃
  have hfork₃ : w₃.env.fork = w.env.fork := by rw [henv₃, henv₂, henv₁]
  simp only [henv₁, henv₂, tail_apply, Nat.zero_add] at hin hout
  simp only [runScript, hopen, hin]
  cases hp₀ : w.env.pipe 0 with
  | none => exact ⟨rfl, h₂⟩
  | some inpipe =>
    simp only [hout]
    cases hp₁ : w.env.pipe 1 with
    | none => exact ⟨rfl, (h₃.trans (close_adds _ _)).trans (close_adds _ _)⟩
    | some outpipe =>
      have hf : w.env.fork 0 = none := by simpa [hp₀, hp₁] using h
      have h₄ : Adds Preparing w (fork w₃).2 := by
        unfold fork
        rw [hfork₃, hf]
        exact h₃.trans (.quiet rfl)
      have hnone : (fork w₃).1 = none := by
        unfold fork
        rw [hfork₃, hf]
      simp only [hnone]
      exact ⟨trivial, (((h₄.trans (close_adds _ _)).trans (close_adds _ _)).trans
        (close_adds _ _)).trans (close_adds _ _)⟩

/-- The world behind the check that the script can be opened. -/
def checkedWorld (path : Bytes) (fd : ℕ) (w : World) : World where
  env := { w.env with openat2 := tail w.env.openat2 }
  trace := w.trace ++ [.openat2 path.tail? (some fd), .close fd]

/-- **A script that can be opened.** -/
theorem processScript_of_checked (sc : ServerConf) (args : Body) (path : Bytes) {w : World}
    {f : Opened} (h : w.env.openat2 0 = .ok f) :
    processScript sc args path w = runScript sc args path (checkedWorld path f.fd w) := by
  have hworld : ((World.log { w with env := { w.env with openat2 := tail w.env.openat2 } }
      (.openat2 path.tail? (some f.fd))).close f.fd) = checkedWorld path f.fd w := by
    simp [World.close, World.log, checkedWorld]
  simp [processScript, getFileExists, openSafe, h, hworld]

/-- **A script that cannot be opened**: a page, or nothing. -/
theorem processScript_of_unchecked (sc : ServerConf) (args : Body) (path : Bytes) {w : World}
    {e : Errno} (h : w.env.openat2 0 = .error e) :
    ∃ w', Adds Preparing w w' ∧
      ((processScript sc args path w = (-1, w')) ∨
        ∃ status, (status = .notFound ∨ status = .notAllowed) ∧
          processScript sc args path w = (-2, (httpSendError status w').2)) := by
  have hadds := openSafe_adds path w
  obtain ⟨w', hopen, -, -⟩ := openSafe_spec path w
  rw [hopen] at hadds
  rw [h] at hopen
  refine ⟨w', hadds, ?_⟩
  simp only [processScript, getFileExists, hopen]
  cases e with
  | enoent => exact .inr ⟨.notFound, .inl rfl, rfl⟩
  | eacces | eloop => exact .inr ⟨.notAllowed, .inr rfl, rfl⟩
  | eagain | epipe | other => exact .inl rfl

/-! ## The arguments -/

/-- A call that writes to a script. -/
def Event.isWrite : Event → Bool
  | .write _ _ => true
  | _ => false

theorem writeArgs_adds (fd : ℕ) (args : Option Bytes) (fuel left : ℕ) (w : World) :
    Adds (fun e => e.isWrite = true) w (writeArgs fd args fuel left w) := by
  induction fuel generalizing args left w with
  | zero => exact .refl w
  | succ fuel ih =>
    simp only [writeArgs]
    split_ifs
    · exact .refl w
    · cases w.env.write 0 with
      | none => exact .quiet rfl
      | some n =>
        refine Adds.trans ?_ (ih _ _ _)
        exact .log rfl rfl

/-- **All calls of a script that is started.** -/
theorem runScript_trace (sc : ServerConf) (args : Body) (path : Bytes) {w : World}
    {inpipe outpipe : ℕ × ℕ} {pid : ℕ} (hin : w.env.pipe 0 = some inpipe)
    (hout : w.env.pipe 1 = some outpipe) (hfork : w.env.fork 0 = some pid) :
    ∃ writes finish, (∀ e ∈ writes, e.isWrite = true) ∧ (∀ e ∈ finish, Finishing e) ∧
      (writeArgs inpipe.2 args.bytes args.size.toNat args.size.toNat
        (startedWorld path inpipe outpipe pid w)).trace =
          (startedWorld path inpipe outpipe pid w).trace ++ writes ∧
      (runScript sc args path w).2.trace =
        (startedWorld path inpipe outpipe pid w).trace ++ writes ++ .close inpipe.2 :: finish := by
  obtain ⟨writes, hwrites, hisWrite⟩ := writeArgs_adds inpipe.2 args.bytes args.size.toNat
    args.size.toNat (startedWorld path inpipe outpipe pid w)
  rw [runScript_of_started sc args path hin hout hfork]
  obtain ⟨finish, hfinish, hfinishing⟩ := finishScript_calls sc inpipe outpipe pid
    (writeArgs inpipe.2 args.bytes args.size.toNat args.size.toNat
      (startedWorld path inpipe outpipe pid w))
  refine ⟨writes, finish, hisWrite, hfinishing, hwrites, ?_⟩
  rw [hfinish, World.close, World.log, hwrites, List.append_assoc _ _ finish,
    List.singleton_append]

/-! ## What the child becomes -/

/-- `strrchr`: the rest of a string, from the last `c` on. -/
def strrchr (c : UInt8) : Bytes → Option Bytes
  | [] => none
  | a :: s =>
    match strrchr c s with
    | some t => some t
    | none => if a = c then some (a :: s) else none

/-- `script_fd`: what the second `open_safe` returned. -/
def scriptFd : Except Errno Opened → Int
  | .ok f => f.fd
  | .error _ => -1

/-- `full_path`. -/
def fullPath (fd : Int) : Bytes := ascii "/proc/self/fd/" ++ printInt fd

/-- The program a child becomes, with the file it is given. -/
inductive Exec where
  | python (file : Bytes)
  | php (file : Bytes)
  | direct (file : Bytes)
  deriving DecidableEq

/-- The choice between the calls of `execl`. -/
def childExec (path : Bytes) (fd : Int) : Exec :=
  match strrchr 46 path with
  | none => .direct (fullPath fd)
  | some ext =>
    if ext = ascii ".py" then .python (fullPath fd)
    else if ext = ascii ".php" then .php (fullPath fd)
    else .direct (fullPath fd)

/-! ## The second open -/

/-- The interpreter was started: the script opened for the check, there were two pipes, and
`fork` succeeded. -/
def Started (env : Env) : Prop :=
  (∃ f, env.openat2 0 = .ok f) ∧ env.pipe 0 ≠ none ∧ env.pipe 1 ≠ none ∧ env.fork 0 ≠ none

/-- `script_fd` is the descriptor of the script. -/
def ScriptOpened (env : Env) : Prop :=
  (∃ f, env.openat2 0 = .ok f) ∧ ∃ f, env.openat2 1 = .ok f

/-- **A script that was opened first.**  Among the calls `es` of `process_script`, which returned
`ret`, there is a `fork` or an answer with status 200 only if the script was opened; otherwise
there is a page with another status, or nothing is sent and the value says so. -/
structure OpenedFirst (env : Env) (ret : Int) (es : List Event) : Prop where
  forked : ∀ pid, .fork pid ∈ es → ScriptOpened env
  answered : ∀ buf accepted, .send buf accepted ∈ es → statusLine .ok <+: buf → ScriptOpened env
  otherwise : ¬ ScriptOpened env →
    (∃ status accepted, status ≠ .ok ∧ .send (errorHeaders status) accepted ∈ es) ∨
      ret = -1 ∧ ∀ buf accepted, .send buf accepted ∉ es

theorem not_ok_of_page {status : HttpStatus} (h : status = .notFound ∨ status = .notAllowed) :
    status ≠ .ok ∧ ¬ statusLine .ok <+: errorHeaders status ∧
      ¬ statusLine .ok <+: errorBody status := by
  rcases h with rfl | rfl <;> decide +kernel

theorem Preparing.ne_fork {e : Event} (h : Preparing e) (pid : ℕ) : e ≠ .fork pid := by
  rcases h with ⟨path, fd, rfl⟩ | ⟨ends, rfl⟩ | ⟨fd, rfl⟩ <;> simp

theorem Preparing.ne_send {e : Event} (h : Preparing e) (buf : Bytes) (accepted : ℕ) :
    e ≠ .send buf accepted := by
  rcases h with ⟨path, fd, rfl⟩ | ⟨ends, rfl⟩ | ⟨fd, rfl⟩ <;> simp

/-- Calls that prepare, with the value of a failure. -/
theorem OpenedFirst.of_preparing {env : Env} {es : List Event} (h : ∀ e ∈ es, Preparing e) :
    OpenedFirst env (-1) es where
  forked pid hmem := absurd rfl ((h _ hmem).ne_fork pid)
  answered buf accepted hmem := absurd rfl ((h _ hmem).ne_send buf accepted)
  otherwise _ := .inr ⟨rfl, fun buf accepted hmem => absurd rfl ((h _ hmem).ne_send buf accepted)⟩

/-- Calls that prepare, and a page. -/
theorem OpenedFirst.of_page {env : Env} {status : HttpStatus} {accepted : ℕ} {ret : Int}
    {es page : List Event} (hstatus : status = .notFound ∨ status = .notAllowed)
    (hes : ∀ e ∈ es, Preparing e) (hpage : ∀ e ∈ page, OnSocket [errorBody status] e) :
    OpenedFirst env ret (es ++ .send (errorHeaders status) accepted :: page) := by
  obtain ⟨hne, hheaders, hbody⟩ := not_ok_of_page hstatus
  refine ⟨fun pid hmem => ?_, fun buf k hmem hok => ?_, fun _ => .inl ⟨status, accepted, hne, ?_⟩⟩
  · rcases List.mem_append.mp hmem with hmem | hmem
    · exact absurd rfl ((hes _ hmem).ne_fork pid)
    · rcases List.mem_cons.mp hmem with heq | hmem
      · exact absurd heq (by simp)
      · rcases hpage _ hmem with heq | ⟨buf, -, k, heq⟩ <;> exact absurd heq (by simp)
  · rcases List.mem_append.mp hmem with hmem | hmem
    · exact absurd rfl ((hes _ hmem).ne_send buf k)
    · rcases List.mem_cons.mp hmem with heq | hmem
      · obtain ⟨rfl, -⟩ := Event.send.inj heq
        exact absurd hok hheaders
      · rcases hpage _ hmem with heq | ⟨buf', hbuf, k', heq⟩
        · exact absurd heq (by simp)
        · obtain ⟨rfl, -⟩ := Event.send.inj heq
          rw [List.mem_singleton.mp hbuf] at hok
          exact absurd hok hbody
  · exact List.mem_append_right _ List.mem_cons_self

section OpenedFirst

variable (sc : ServerConf) (args : Body) (path : Bytes) {w : World}

/-- A script that cannot be opened is not run. -/
theorem openedFirst_of_unchecked {e : Errno} (hcheck : w.env.openat2 0 = .error e) :
    ∃ es, (processScript sc args path w).2.trace = w.trace ++ es ∧
      OpenedFirst w.env (processScript sc args path w).1 es := by
  obtain ⟨w', ⟨es, hes, hprep⟩, heq | ⟨status, hstatus, heq⟩⟩ :=
    processScript_of_unchecked sc args path hcheck
  · rw [heq]
    exact ⟨es, hes, .of_preparing hprep⟩
  · obtain ⟨accepted, w₁, hw₁, page, hpage, hbody⟩ := httpSendError_calls status w'
    rw [heq]
    refine ⟨es ++ .send (errorHeaders status) accepted :: page, ?_,
      .of_page hstatus hprep hbody⟩
    rw [hpage, hw₁, hes]
    simp

variable {f : Opened} (hcheck : w.env.openat2 0 = .ok f)

include hcheck

/-- Without two pipes and a child nothing is sent. -/
theorem openedFirst_of_not_started
    (hstart : w.env.pipe 0 = none ∨ w.env.pipe 1 = none ∨ w.env.fork 0 = none) :
    ∃ es, (processScript sc args path w).2.trace = w.trace ++ es ∧
      OpenedFirst w.env (processScript sc args path w).1 es := by
  rw [processScript_of_checked sc args path hcheck]
  obtain ⟨hret, es, hes, hprep⟩ := runScript_of_not_started sc args path
    (w := checkedWorld path f.fd w) hstart
  rw [hret]
  refine ⟨[.openat2 path.tail? (some f.fd), .close f.fd] ++ es, ?_, .of_preparing fun e he => ?_⟩
  · rw [hes, checkedWorld, List.append_assoc]
  · rcases List.mem_append.mp he with he | he
    · rcases List.mem_cons.mp he with rfl | he
      · exact .inl ⟨_, _, rfl⟩
      · exact .inr (.inr ⟨_, List.mem_singleton.mp he⟩)
    · exact hprep e he

/-- A child is started whatever the second open returns. -/
theorem openedFirst_iff_of_started {inpipe outpipe : ℕ × ℕ} {pid : ℕ}
    (hin : w.env.pipe 0 = some inpipe) (hout : w.env.pipe 1 = some outpipe)
    (hfork : w.env.fork 0 = some pid) :
    ∃ es, (processScript sc args path w).2.trace = w.trace ++ es ∧
      (OpenedFirst w.env (processScript sc args path w).1 es ↔
        ∃ f, w.env.openat2 1 = .ok f) := by
  rw [processScript_of_checked sc args path hcheck]
  obtain ⟨writes, finish, -, -, -, htrace⟩ := runScript_trace sc args path
    (w := checkedWorld path f.fd w) hin hout hfork
  rw [startedWorld, checkedWorld] at htrace
  simp only [List.append_assoc] at htrace
  refine ⟨_, htrace, fun h => ?_, fun h => ?_⟩
  · exact (h.forked pid (by simp)).2
  · have hopened : ScriptOpened w.env := ⟨⟨f, hcheck⟩, h⟩
    exact ⟨fun _ _ => hopened, fun _ _ _ _ => hopened, fun h => absurd hopened h⟩

end OpenedFirst

/-- **Exactly when a script was opened first.**  If the interpreter is started, the second open
has to succeed; nothing looks whether it did. -/
theorem openedFirst_iff (sc : ServerConf) (args : Body) (path : Bytes) (w : World) :
    ∃ es, (processScript sc args path w).2.trace = w.trace ++ es ∧
      (OpenedFirst w.env (processScript sc args path w).1 es ↔
        (Started w.env → ∃ f, w.env.openat2 1 = .ok f)) := by
  by_cases hstart : Started w.env
  · have ⟨⟨f, hcheck⟩, h₀, h₁, h₂⟩ := hstart
    obtain ⟨inpipe, hin⟩ := Option.ne_none_iff_exists'.mp h₀
    obtain ⟨outpipe, hout⟩ := Option.ne_none_iff_exists'.mp h₁
    obtain ⟨pid, hfork⟩ := Option.ne_none_iff_exists'.mp h₂
    obtain ⟨es, htrace, hiff⟩ := openedFirst_iff_of_started sc args path hcheck hin hout hfork
    exact ⟨es, htrace, fun h _ => hiff.mp h, fun h => hiff.mpr (h hstart)⟩
  · obtain ⟨es, htrace, hopened⟩ : ∃ es, (processScript sc args path w).2.trace = w.trace ++ es ∧
        OpenedFirst w.env (processScript sc args path w).1 es := by
      cases hcheck : w.env.openat2 0 with
      | error e => exact openedFirst_of_unchecked sc args path hcheck
      | ok f =>
        refine openedFirst_of_not_started sc args path hcheck ?_
        by_contra hnone
        simp only [not_or] at hnone
        exact hstart ⟨⟨f, hcheck⟩, hnone⟩
    exact ⟨es, htrace, iff_of_true hopened fun h => absurd h hstart⟩

/-- A script that is removed between the two opens.  The interpreter says so on its output. -/
def removedScript : Env :=
  { Env.calm ⟨12, []⟩ (ascii "Thu, 01 Jan 1970 00:00:00 GMT") with
    openat2 := fun k => if k = 0 then .ok ⟨12, []⟩ else .error .enoent
    read := fun k => if k = 0 then some (112, ascii "ython3: can't open file") else none }

/-- **A script that is gone is answered with status 200.**  There is no descriptor, and the
interpreter is started on the path of the number `-1`. -/
theorem removedScript_not_openedFirst :
    let path := ascii "/cgi-bin/a.py"
    let run := processScript sampleConf ⟨0, none⟩ path ⟨removedScript, []⟩
    childExec path (scriptFd (removedScript.openat2 1)) = .python (ascii "/proc/self/fd/-1") ∧
      run.1 = 0 ∧ statusLine .ok <+: run.2.sent ∧
        ¬ OpenedFirst removedScript run.1 run.2.trace := by
  refine ⟨by decide +kernel, by decide +kernel, by decide +kernel, fun h => ?_⟩
  have hforked : Event.fork 100 ∈ (processScript sampleConf ⟨0, none⟩ (ascii "/cgi-bin/a.py")
      ⟨removedScript, []⟩).2.trace := by decide +kernel
  obtain ⟨-, f, hf⟩ := h.forked 100 hforked
  exact absurd hf (by simp [removedScript])

end BareHttp
