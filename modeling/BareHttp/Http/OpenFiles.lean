import Mathlib.Data.Multiset.AddSub
import BareHttp.Http.Delivery

/-!
# What a request leaves open

`http_process_request` opens files and pipes and closes them again, but not always.  A
`Ledger` is kept along the calls it makes: what it has opened and not closed, and whether
`tcp_send` has closed the client's descriptor behind a `send` that reported `EPIPE`.  The
calls are in order when every `close` is of something in the ledger, and nothing is opened
or closed once the client's descriptor is gone.

They always are, and what stands in the ledger at the end is known from the request and
the results of the calls (`httpProcessRequest_books`): the script, if it could be opened a
second time, since nothing closes that descriptor; or the file, if it was not sent whole,
since `send_file` returns in front of its `close`; and otherwise nothing.
-/

namespace BareHttp

/-- What a request has opened and not closed, and whether the client's descriptor has been
closed under it. -/
structure Ledger where
  gone : Bool
  own : Multiset ℕ

namespace Ledger

/-- One call is entered, if it is in order. -/
def enter (l : Ledger) : Event → Option Ledger
  | .openat2 _ (some fd) => if l.gone then none else some { l with own := fd ::ₘ l.own }
  | .pipe ends => if l.gone then none else some { l with own := ends.2 ::ₘ ends.1 ::ₘ l.own }
  | .close fd =>
    if l.gone = false ∧ fd ∈ l.own then some { l with own := l.own.erase fd } else none
  | .shutdown => some { l with gone := true }
  | _ => some l

/-- Calls are entered one after the other. -/
def enters : Ledger → List Event → Option Ledger
  | l, [] => some l
  | l, e :: es => (l.enter e).bind fun l => l.enters es

theorem enters_append {l l' : Ledger} {es : List Event} (h : l.enters es = some l')
    (fs : List Event) : l.enters (es ++ fs) = l'.enters fs := by
  induction es generalizing l with
  | nil =>
    obtain rfl : l = l' := Option.some.inj h
    rfl
  | cons e es ih =>
    obtain ⟨m, hm, hrest⟩ := Option.bind_eq_some_iff.mp h
    simp only [List.cons_append, enters, hm, Option.bind_some]
    exact ih hrest

end Ledger

/-- From `w` to `w'` the calls were in order and took the ledger from `l` to `l'`. -/
def Books (l l' : Ledger) (w w' : World) : Prop :=
  ∃ es, w'.trace = w.trace ++ es ∧ l.enters es = some l'

namespace Books

variable {l l₁ l₂ : Ledger} {w w₁ w₂ : World}

/-- A call that is not recorded. -/
theorem quiet (l : Ledger) (htrace : w₁.trace = w.trace) : Books l l w w₁ :=
  ⟨[], by rw [htrace, List.append_nil], rfl⟩

theorem refl (l : Ledger) (w : World) : Books l l w w := quiet l rfl

theorem trans (h₁ : Books l l₁ w w₁) (h₂ : Books l₁ l₂ w₁ w₂) : Books l l₂ w w₂ := by
  obtain ⟨es, hes, hl⟩ := h₁
  obtain ⟨fs, hfs, hl'⟩ := h₂
  exact ⟨es ++ fs, by rw [hfs, hes, List.append_assoc],
    (Ledger.enters_append hl fs).trans hl'⟩

/-- One call. -/
theorem log {e : Event} (htrace : w₁.trace = w.trace) (he : l.enter e = some l₁) :
    Books l l₁ w (w₁.log e) :=
  ⟨[e], by simp [World.log, htrace], by simp [Ledger.enters, he]⟩

/-- A descriptor that is in the ledger is closed, wherever it stands among the others. -/
theorem close {own own₁ : Multiset ℕ} {fd : ℕ} (h : own = fd ::ₘ own₁) (w : World) :
    Books ⟨false, own⟩ ⟨false, own₁⟩ w (w.close fd) := by
  refine log rfl ?_
  simp [Ledger.enter, h]

end Books

/-! ## The functions of `srclib/http.c` -/

theorem tcpSend_books (g : Bool) (own : Multiset ℕ) (buf : Bytes) (w : World) :
    ∃ g', Books ⟨g, own⟩ ⟨g', own⟩ w (tcpSend buf w).2 ∧ (0 ≤ (tcpSend buf w).1 → g' = g) := by
  have hone : ∀ (w' : World) (k : ℕ), w'.trace = w.trace →
      Books ⟨g, own⟩ ⟨g, own⟩ w (w'.log (.send buf k)) := fun w' k htrace => .log htrace rfl
  unfold tcpSend
  cases w.env.send 0 with
  | all => exact ⟨g, hone _ _ rfl, fun _ => rfl⟩
  | some n => exact ⟨g, hone _ _ rfl, fun _ => rfl⟩
  | fail e =>
    cases e with
    | epipe => exact ⟨true, (hone _ _ rfl).trans (.log rfl rfl), fun h => absurd h (by simp)⟩
    | eacces | eloop | enoent | eagain | other => exact ⟨g, hone _ _ rfl, fun _ => rfl⟩

theorem httpSendError_books (g : Bool) (own : Multiset ℕ) (code : HttpStatus) (w : World) :
    ∃ g', Books ⟨g, own⟩ ⟨g', own⟩ w (httpSendError code w).2 := by
  obtain ⟨g₁, h, -⟩ := tcpSend_books g own (errorHeaders code) w
  unfold httpSendError
  generalize tcpSend (errorHeaders code) w = p at h ⊢
  obtain ⟨ret, w₁⟩ := p
  show ∃ g', Books ⟨g, own⟩ ⟨g', own⟩ w
    (if ret < 0 then (-1, w₁) else (0, (tcpSend (errorBody code) w₁).2)).2
  split
  · exact ⟨g₁, h⟩
  · obtain ⟨g₂, h', -⟩ := tcpSend_books g₁ own (errorBody code) w₁
    exact ⟨g₂, h.trans h'⟩

/-- What an `open` adds. -/
def openedBy : Except Errno Opened → Multiset ℕ
  | .ok f => {f.fd}
  | .error _ => 0

theorem openSafe_books (own : Multiset ℕ) (path : Bytes) (w : World) :
    Books ⟨false, own⟩ ⟨false, openedBy (openSafe path w).1 + own⟩ w (openSafe path w).2 := by
  unfold openSafe
  cases w.env.openat2 0 with
  | ok f => exact .log rfl (by simp [Ledger.enter, openedBy])
  | error e => exact .log rfl (by simp [Ledger.enter, openedBy])

theorem getFileExists_books (own : Multiset ℕ) (path : Bytes) (w : World) :
    Books ⟨false, own⟩ ⟨false, own⟩ w (getFileExists path w).2 := by
  have h := openSafe_books own path w
  unfold getFileExists
  generalize openSafe path w = p at h ⊢
  obtain ⟨r, w₁⟩ := p
  cases r with
  | error e => simpa [openedBy] using h
  | ok f => exact h.trans (.close (by simp [openedBy]) w₁)

theorem getFileInfo_books (own : Multiset ℕ) (path : Bytes) (w : World) :
    Books ⟨false, own⟩ ⟨false, own⟩ w (getFileInfo path w).2.2 := by
  have h := openSafe_books own path w
  unfold getFileInfo
  generalize openSafe path w = p at h ⊢
  obtain ⟨r, w₁⟩ := p
  cases r with
  | error e => simpa [openedBy] using h
  | ok f =>
    have hst : Books ⟨false, own⟩ ⟨false, openedBy (.ok f) + own⟩ w (fstat w₁).2 :=
      h.trans (.quiet _ rfl)
    dsimp only
    generalize fstat w₁ = q at hst ⊢
    obtain ⟨st, w₂⟩ := q
    cases st with
    | none => exact hst.trans (.close (by simp [openedBy]) w₂)
    | some st => exact hst.trans (.close (by simp [openedBy]) w₂)

theorem sendFileLoop_books (l : Ledger) (content : Bytes) (size fuel offset : ℕ) (w : World) :
    Books l l w (sendFileLoop content size fuel offset w).2 := by
  induction fuel generalizing offset w with
  | zero => exact .refl l w
  | succ fuel ih =>
    unfold sendFileLoop
    split
    · dsimp only
      split
      · exact .quiet l rfl
      · refine Books.trans ?_ (ih _ _)
        exact .log rfl rfl
    · exact .refl l w

/-- What `send_file` leaves open: the file, if the loop ended before its end. -/
def unsent (opened : Except Errno Opened) (stat : Option Stat)
    (results : ℕ → SendfileResult) : Multiset ℕ :=
  match opened, stat with
  | .ok f, some st =>
    if finalOffset f.content st.stSize st.stSize 0 results < st.stSize then {f.fd} else 0
  | _, _ => 0

theorem sendFile_books (own : Multiset ℕ) (path : Bytes) (w : World) :
    Books ⟨false, own⟩
      ⟨false, unsent (w.env.openat2 0) (w.env.fstat 0) w.env.sendfile + own⟩ w
      (sendFile path w).2 := by
  have h := openSafe_books own path w
  obtain ⟨w₁, hopen, henv, -⟩ := openSafe_spec path w
  rw [hopen] at h
  unfold sendFile
  rw [hopen]
  dsimp only at h ⊢
  cases hr : w.env.openat2 0 with
  | error e =>
    rw [hr] at h
    simpa [openedBy, unsent] using h
  | ok f =>
    rw [hr] at h
    have hst : Books ⟨false, own⟩ ⟨false, openedBy (.ok f) + own⟩ w (fstat w₁).2 :=
      h.trans (.quiet _ rfl)
    have hstat : (fstat w₁).1 = w.env.fstat 0 := by
      rw [fstat, henv]
    have hsend : (fstat w₁).2.env.sendfile = w.env.sendfile := by
      rw [fstat, henv]
    dsimp only
    rw [← hstat, ← hsend]
    generalize fstat w₁ = q at hst ⊢
    obtain ⟨st, w₂⟩ := q
    cases st with
    | none =>
      have hclose : Books ⟨false, own⟩ ⟨false, own⟩ w (w₂.close f.fd) :=
        hst.trans (.close (by simp [openedBy]) w₂)
      simpa [unsent] using hclose
    | some st =>
      have hloop := hst.trans (sendFileLoop_books _ f.content st.stSize st.stSize 0 w₂)
      have hoff := (sendFileLoop_spec f.content st.stSize st.stSize 0 w₂).1
      simp only [unsent]
      rw [← hoff]
      generalize sendFileLoop f.content st.stSize st.stSize 0 w₂ = r at hloop ⊢
      obtain ⟨offset, w₃⟩ := r
      dsimp only
      split
      · exact hloop
      · rw [Multiset.zero_add]
        exact hloop.trans (.close (by simp [openedBy]) w₃)

theorem writeArgs_books (l : Ledger) (fd : ℕ) (args : Option Bytes) (fuel left : ℕ) (w : World) :
    Books l l w (writeArgs fd args fuel left w) := by
  induction fuel generalizing args left w with
  | zero => exact .refl l w
  | succ fuel ih =>
    unfold writeArgs
    split
    · exact .refl l w
    · dsimp only
      split
      · exact .quiet l rfl
      · refine Books.trans ?_ (ih _ _ _)
        exact .log rfl rfl

theorem readOutput_books (l : Ledger) (fd fuel : ℕ) (out : Bytes) (w : World) :
    Books l l w (readOutput fd fuel out w).2 := by
  induction fuel generalizing out w with
  | zero => exact .refl l w
  | succ fuel ih =>
    unfold readOutput
    split
    · exact .refl l w
    · dsimp only
      split
      · exact .quiet l rfl
      · refine Books.trans ?_ (ih _ _)
        exact .log rfl rfl

/-- Formatting a date is no call. -/
theorem Books.strftime (l : Ledger) {w w' : World} {date : Option Bytes}
    (h : BareHttp.strftime w = (date, w')) : Books l l w w' := by
  refine .quiet l ?_
  rw [show w' = (BareHttp.strftime w).2 by rw [h]]
  rfl

/-- The two ends of a pipe are in the ledger once it was made. -/
theorem pipe_books (own : Multiset ℕ) (w : World) :
    match (pipe w).1 with
    | some ends => Books ⟨false, own⟩ ⟨false, ends.2 ::ₘ ends.1 ::ₘ own⟩ w (pipe w).2
    | none => Books ⟨false, own⟩ ⟨false, own⟩ w (pipe w).2 := by
  unfold pipe
  cases w.env.pipe 0 with
  | some ends => exact .log rfl rfl
  | none => exact .quiet _ rfl

theorem fork_books (l : Ledger) (w : World) : Books l l w (fork w).2 := by
  unfold fork
  cases w.env.fork 0 with
  | some pid => exact .log rfl rfl
  | none => exact .quiet l rfl

theorem sendScriptOutput_books (own : Multiset ℕ) (sc : ServerConf) (out : Bytes) (w : World) :
    ∃ g, Books ⟨false, own⟩ ⟨g, own⟩ w (sendScriptOutput sc out w).2 := by
  have h : Books ⟨false, own⟩ ⟨false, own⟩ w (strftime w).2 := .quiet _ rfl
  unfold sendScriptOutput
  generalize strftime w = p at h ⊢
  obtain ⟨date, w₁⟩ := p
  have hpage : ∀ code, ∃ g, Books ⟨false, own⟩ ⟨g, own⟩ w (httpSendError code w₁).2 := by
    intro code
    obtain ⟨g, hg⟩ := httpSendError_books false own code w₁
    exact ⟨g, h.trans hg⟩
  cases date with
  | none => exact hpage _
  | some date =>
    dsimp only
    split
    · exact hpage _
    · next buffer _ =>
      obtain ⟨g, hsend, -⟩ := tcpSend_books false own buffer w₁
      generalize tcpSend buffer w₁ = q at hsend ⊢
      obtain ⟨ret, w₂⟩ := q
      obtain ⟨g', hout, -⟩ := tcpSend_books g own out w₂
      dsimp only
      split
      · exact ⟨g, h.trans hsend⟩
      · split
        · exact ⟨g', (h.trans hsend).trans hout⟩
        · exact ⟨g', (h.trans hsend).trans hout⟩

/-- The way a script is run, from the two pipes on: all four ends are closed again. -/
theorem runScript_pipes_books (own : Multiset ℕ) (inpipe outpipe : ℕ × ℕ) (args : Body) (pid : ℕ)
    (w : World) :
    let w₁ := (w.close inpipe.1).close outpipe.2
    let w₂ := writeArgs inpipe.2 args.bytes args.size.toNat args.size.toNat w₁
    let w₃ := (readOutput outpipe.1 (maxBuffr + 1) [] (w₂.close inpipe.2)).2
    Books ⟨false, outpipe.2 ::ₘ outpipe.1 ::ₘ inpipe.2 ::ₘ inpipe.1 ::ₘ own⟩ ⟨false, own⟩ w
      ((w₃.close outpipe.1).log (.waitpid pid)) := by
  intro w₁ w₂ w₃
  have hin₁ : Books ⟨false, outpipe.2 ::ₘ outpipe.1 ::ₘ inpipe.2 ::ₘ inpipe.1 ::ₘ own⟩
      ⟨false, outpipe.2 ::ₘ outpipe.1 ::ₘ inpipe.2 ::ₘ own⟩ w (w.close inpipe.1) :=
    .close (by rw [Multiset.cons_swap inpipe.2, Multiset.cons_swap outpipe.1,
      Multiset.cons_swap outpipe.2]) w
  have hout₂ : Books ⟨false, outpipe.2 ::ₘ outpipe.1 ::ₘ inpipe.2 ::ₘ own⟩
      ⟨false, outpipe.1 ::ₘ inpipe.2 ::ₘ own⟩ (w.close inpipe.1) w₁ := .close rfl _
  have hin₂ : Books ⟨false, outpipe.1 ::ₘ inpipe.2 ::ₘ own⟩ ⟨false, outpipe.1 ::ₘ own⟩ w₂
      (w₂.close inpipe.2) := .close (Multiset.cons_swap _ _ _) w₂
  have hread : Books ⟨false, outpipe.1 ::ₘ own⟩ ⟨false, outpipe.1 ::ₘ own⟩ (w₂.close inpipe.2)
      w₃ := readOutput_books _ _ _ _ _
  have hwait : Books ⟨false, own⟩ ⟨false, own⟩ (w₃.close outpipe.1)
      ((w₃.close outpipe.1).log (.waitpid pid)) := .log rfl rfl
  exact hin₁.trans (hout₂.trans ((writeArgs_books _ _ _ _ _ _).trans (hin₂.trans (hread.trans
    ((Books.close rfl w₃).trans hwait)))))

/-- A pipe that was made is closed again. -/
theorem Books.closePipe {own own₁ : Multiset ℕ} {ends : ℕ × ℕ}
    (h : own = ends.1 ::ₘ ends.2 ::ₘ own₁) (w : World) :
    Books ⟨false, own⟩ ⟨false, own₁⟩ w ((w.close ends.1).close ends.2) :=
  (Books.close h w).trans (.close rfl _)

/-- **Everything a script was run with is closed again but its own descriptor.** -/
theorem runScript_books (own : Multiset ℕ) (sc : ServerConf) (args : Body) (path : Bytes)
    (w : World) :
    ∃ g, Books ⟨false, own⟩ ⟨g, openedBy (w.env.openat2 0) + own⟩ w
      (runScript sc args path w).2 := by
  have h := openSafe_books own path w
  obtain ⟨w₁, hopen, -, -⟩ := openSafe_spec path w
  rw [hopen] at h
  unfold runScript
  rw [hopen]
  dsimp only at h ⊢
  generalize openedBy (w.env.openat2 0) + own = own₁ at h
  suffices hrest : ∃ g, Books ⟨false, own₁⟩ ⟨g, own₁⟩ w₁ _ by
    obtain ⟨g, hg⟩ := hrest
    exact ⟨g, h.trans hg⟩
  have hin := pipe_books own₁ w₁
  generalize pipe w₁ = q at hin ⊢
  obtain ⟨inpipe, w₂⟩ := q
  cases inpipe with
  | none => exact ⟨false, hin⟩
  | some inpipe =>
    dsimp only at hin ⊢
    have hout := pipe_books (inpipe.2 ::ₘ inpipe.1 ::ₘ own₁) w₂
    generalize pipe w₂ = q at hout ⊢
    obtain ⟨outpipe, w₃⟩ := q
    cases outpipe with
    | none => exact ⟨false, (hin.trans hout).trans (.closePipe (Multiset.cons_swap _ _ _) w₃)⟩
    | some outpipe =>
      dsimp only at hout ⊢
      have hfork := (hin.trans hout).trans (fork_books _ w₃)
      generalize fork w₃ = q at hfork ⊢
      obtain ⟨pid, w₄⟩ := q
      cases pid with
      | none =>
        have hclose : Books ⟨false, outpipe.2 ::ₘ outpipe.1 ::ₘ inpipe.2 ::ₘ inpipe.1 ::ₘ own₁⟩
            ⟨false, outpipe.1 ::ₘ outpipe.2 ::ₘ own₁⟩ w₄
            ((w₄.close inpipe.1).close inpipe.2) := by
          rw [Multiset.cons_swap outpipe.2]
          refine .closePipe ?_ w₄
          rw [Multiset.cons_swap inpipe.2, Multiset.cons_swap outpipe.2,
            Multiset.cons_swap outpipe.1, Multiset.cons_swap outpipe.2 inpipe.2,
            Multiset.cons_swap outpipe.1 inpipe.2]
        exact ⟨false, hfork.trans (hclose.trans (.closePipe rfl _))⟩
      | some pid =>
        have hpipes := hfork.trans (runScript_pipes_books own₁ inpipe outpipe args pid w₄)
        dsimp only at hpipes ⊢
        split
        · exact ⟨false, hpipes⟩
        · next out _ =>
          obtain ⟨g, hg⟩ := sendScriptOutput_books own₁ sc out _
          exact ⟨g, hpipes.trans hg⟩

/-- What `process_script` leaves open: the script, if it opens twice. -/
def scriptLeft (env : Env) : Multiset ℕ :=
  match env.openat2 0 with
  | .ok _ => openedBy (env.openat2 1)
  | .error _ => 0

theorem processScript_books (own : Multiset ℕ) (sc : ServerConf) (args : Body) (path : Bytes)
    (w : World) :
    ∃ g, Books ⟨false, own⟩ ⟨g, scriptLeft w.env + own⟩ w (processScript sc args path w).2 := by
  have h := getFileExists_books own path w
  obtain ⟨w₁, hopen, henv, -⟩ := openSafe_spec path w
  unfold processScript
  have hpage : ∀ code, ∃ g, Books ⟨false, own⟩ ⟨g, own⟩ w
      (httpSendError code (getFileExists path w).2).2 := by
    intro code
    obtain ⟨g, hg⟩ := httpSendError_books false own code (getFileExists path w).2
    exact ⟨g, h.trans hg⟩
  cases hr : w.env.openat2 0 with
  | error e =>
    have hret : (getFileExists path w).1 = openErrorCode e := by
      simp [getFileExists, hopen, hr]
    have hleft : scriptLeft w.env + own = own := by simp [scriptLeft, hr]
    rw [hleft]
    generalize getFileExists path w = p at h hpage hret ⊢
    obtain ⟨ret, w₂⟩ := p
    dsimp only at h hpage hret ⊢
    cases e with
    | enoent =>
      rw [if_pos (by rw [hret]; rfl)]
      exact hpage _
    | eacces | eloop =>
      rw [if_neg (by rw [hret]; decide), if_pos (by rw [hret]; rfl)]
      exact hpage _
    | eagain | epipe | other =>
      rw [if_neg (by rw [hret]; simp [openErrorCode]), if_neg (by rw [hret]; simp [openErrorCode]),
        if_pos (by rw [hret]; rfl)]
      exact ⟨false, h⟩
  | ok f =>
    have hexists : getFileExists path w = (0, w₁.close f.fd) := by
      simp [getFileExists, hopen, hr]
    rw [hexists] at h ⊢
    dsimp only at h ⊢
    rw [if_neg (by decide), if_neg (by decide), if_neg (by decide)]
    obtain ⟨g, hg⟩ := runScript_books own sc args path (w₁.close f.fd)
    have hleft : openedBy ((w₁.close f.fd).env.openat2 0) = scriptLeft w.env := by
      simp [scriptLeft, hr, henv]
    rw [hleft] at hg
    exact ⟨g, h.trans hg⟩

/-- What `process_get` leaves open behind a path that is not a script: the file, if its
header went out and it was not sent whole. -/
def fileLeft (sc : ServerConf) (path : Bytes) (env : Env) : Multiset ℕ :=
  match filePlan sc path env with
  | .file _ _ =>
    if (env.send 0).failed then 0 else unsent (env.openat2 1) (env.fstat 1) env.sendfile
  | _ => 0

/-- A response, from its plan on. -/
theorem deliver_books (own : Multiset ℕ) (p : Plan) (w : World) :
    ∃ g, Books ⟨false, own⟩
      ⟨g, (match p with
        | .file _ _ =>
          if (w.env.send 0).failed then 0
          else unsent (w.env.openat2 0) (w.env.fstat 0) w.env.sendfile
        | _ => 0) + own⟩ w (deliver p w).2 := by
  cases p with
  | silent ret => exact ⟨false, by simpa [deliver] using Books.refl _ w⟩
  | page status ret =>
    obtain ⟨g, hg⟩ := httpSendError_books false own status w
    exact ⟨g, by simpa [deliver] using hg⟩
  | options header =>
    obtain ⟨g, hg, -⟩ := tcpSend_books false own header w
    exact ⟨g, by simpa [deliver] using hg⟩
  | script header output =>
    obtain ⟨g, hg, -⟩ := tcpSend_books false own header w
    obtain ⟨g', hg', -⟩ := tcpSend_books g own output (tcpSend header w).2
    simp only [deliver, Multiset.zero_add]
    split
    · exact ⟨g, hg⟩
    · exact ⟨g', hg.trans hg'⟩
  | file header path =>
    obtain ⟨g, hg, hok⟩ := tcpSend_books false own header w
    obtain ⟨hneg, henv, -⟩ := tcpSend_spec header w
    simp only [deliver]
    by_cases hfail : (w.env.send 0).failed = true
    · rw [if_pos (hneg.mpr hfail), if_pos hfail, Multiset.zero_add]
      obtain ⟨g', hg'⟩ := httpSendError_books g own .internalError (tcpSend header w).2
      exact ⟨g', hg.trans hg'⟩
    · have hret : ¬ (tcpSend header w).1 < 0 := fun h => hfail (hneg.mp h)
      obtain rfl : g = false := hok (by omega)
      have hfile := sendFile_books own path (tcpSend header w).2
      rw [henv] at hfile
      rw [if_neg hret, if_neg hfail]
      exact ⟨false, hg.trans hfile⟩

/-- Up to its plan `process_get` opens a file that is not a script once and closes it again. -/
theorem serveFile_planned (own : Multiset ℕ) (sc : ServerConf) (path : Bytes) (w : World) :
    ∃ w', Books ⟨false, own⟩ ⟨false, own⟩ w w' ∧
      serveFile sc path w = deliver (filePlan sc path w.env) w' ∧
      ∀ header path', filePlan sc path w.env = .file header path' →
        w'.env.openat2 0 = w.env.openat2 1 ∧ w'.env.fstat 0 = w.env.fstat 1 ∧
        w'.env.send = w.env.send ∧ w'.env.sendfile = w.env.sendfile := by
  have h := getFileInfo_books own path w
  obtain ⟨w₁, hopen, henv₁, -⟩ := openSafe_spec path w
  obtain ⟨w₂, hstat, henv₂, -⟩ := fstat_spec w₁
  simp only [henv₁] at hstat henv₂
  unfold serveFile filePlan
  cases hr : w.env.openat2 0 with
  | error e =>
    have hinfo : getFileInfo path w = (openErrorCode e, none, w₁) := by
      simp [getFileInfo, hopen, hr]
    rw [hinfo] at h ⊢
    refine ⟨w₁, h, ?_⟩
    cases e with
    | enoent | eacces | eloop => exact ⟨rfl, by simp⟩
    | eagain | epipe | other => exact ⟨rfl, by simp⟩
  | ok f =>
    cases hst : w.env.fstat 0 with
    | none =>
      have hinfo : getFileInfo path w = (-1, none, w₂.close f.fd) := by
        simp [getFileInfo, hopen, hr, hstat, hst]
      rw [hinfo] at h ⊢
      exact ⟨_, h, rfl, by simp⟩
    | some st =>
      have hinfo : getFileInfo path w =
          (0, some (CInt.toInt32 st.stSize, st.stMtime), w₂.close f.fd) := by
        simp [getFileInfo, hopen, hr, hstat, hst]
      rw [hinfo] at h ⊢
      obtain ⟨w₃, hdate, henv₃, -⟩ := strftime_spec (w₂.close f.fd)
      obtain ⟨w₄, hmod, henv₄, -⟩ := strftime_spec w₃
      have h₃ : Books ⟨false, own⟩ ⟨false, own⟩ w w₃ := h.trans (.strftime _ hdate)
      have h₄ : Books ⟨false, own⟩ ⟨false, own⟩ w w₄ := h₃.trans (.strftime _ hmod)
      simp only [World.env_close, henv₂] at hdate henv₃
      simp only [henv₃, tail_apply, Nat.zero_add] at hmod henv₄
      simp only [if_neg (show ¬ (0 : Int) = -2 by decide), if_neg (show ¬ (0 : Int) = -3 by decide),
        hdate]
      cases w.env.strftime 0 with
      | none => exact ⟨w₃, h₃, rfl, by simp⟩
      | some date =>
        simp only [hmod]
        refine ⟨w₄, h₄, ?_, fun _ _ _ => by simp [henv₄]⟩
        cases w.env.strftime 1 with
        | none => rfl
        | some lastMod =>
          simp only
          cases serializeResponse (fileResponse sc date lastMod (CInt.toInt32 st.stSize)
            (getMimeType path)) maxBuffr with
          | none => rfl
          | some header =>
            simp only [deliver]
            split
            · rfl
            · split <;> rfl

theorem serveFile_books (own : Multiset ℕ) (sc : ServerConf) (path : Bytes) (w : World) :
    ∃ g, Books ⟨false, own⟩ ⟨g, fileLeft sc path w.env + own⟩ w (serveFile sc path w).2 := by
  obtain ⟨w', h, heq, henv⟩ := serveFile_planned own sc path w
  obtain ⟨g, hg⟩ := deliver_books own (filePlan sc path w.env) w'
  refine ⟨g, h.trans ?_⟩
  rw [heq, fileLeft]
  cases hplan : filePlan sc path w.env with
  | file header path' =>
    obtain ⟨hopen, hstat, hsend, hsendfile⟩ := henv header path' hplan
    simpa only [hplan, hopen, hstat, hsend, hsendfile] using hg
  | silent | page | options | script => simpa only [hplan] using hg

/-- The path of a request that asks for one. -/
def target (request : HttpRequest) : Option Bytes :=
  if checkPathTraversal request.url then none else buildPath (urlPath request.url)

/-- **What a request leaves open.** -/
def leftOpen (sc : ServerConf) (request : HttpRequest) (env : Env) : Multiset ℕ :=
  match requestMethodType request.method, target request with
  | .get, some path => if isScript path then scriptLeft env else fileLeft sc path env
  | .post, some path => if isScript path then scriptLeft env else 0
  | _, _ => 0

theorem httpProcessRequest_books (own : Multiset ℕ) (sc : ServerConf) (request : HttpRequest)
    (w : World) :
    ∃ g, Books ⟨false, own⟩ ⟨g, leftOpen sc request w.env + own⟩ w
      (httpProcessRequest sc request w).2 := by
  have hpage : ∀ code, ∃ g, Books ⟨false, own⟩ ⟨g, 0 + own⟩ w (httpSendError code w).2 := by
    intro code
    rw [Multiset.zero_add]
    exact httpSendError_books false own code w
  unfold httpProcessRequest leftOpen
  cases requestMethodType request.method with
  | unknown => exact hpage _
  | options =>
    rw [processOptions_eq_deliver, Multiset.zero_add]
    obtain ⟨g, hg, -⟩ := tcpSend_books false own optionsHeader w
    exact ⟨g, hg⟩
  | get =>
    unfold processGet target
    by_cases htrav : checkPathTraversal request.url = true
    · simp only [if_pos htrav]
      exact hpage _
    · simp only [if_neg htrav]
      cases buildPath (urlPath request.url) with
      | none => exact hpage _
      | some path =>
        dsimp only
        split
        · obtain ⟨g, hg⟩ := processScript_books own sc
            ⟨(urlQuery request.url).length, some (urlQuery request.url)⟩ path w
          refine ⟨g, ?_⟩
          split
          · exact hg
          · exact hg
        · exact serveFile_books own sc path w
  | post =>
    unfold processPost target
    by_cases htrav : checkPathTraversal request.url = true
    · simp only [if_pos htrav]
      exact hpage _
    · simp only [if_neg htrav]
      cases buildPath (urlPath request.url) with
      | none => exact hpage _
      | some path =>
        dsimp only
        split
        · obtain ⟨g, hg⟩ := processScript_books own sc request.body path w
          refine ⟨g, ?_⟩
          split
          · exact hg
          · exact hg
        · exact ⟨false, by rw [Multiset.zero_add]; exact .refl _ w⟩

end BareHttp
