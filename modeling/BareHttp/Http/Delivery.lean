import BareHttp.Http.Plan

/-!
# What reaches the socket

The bytes a plan puts on the socket and its return value, as functions of the
results of `send`, `sendfile` and the second `open` and `fstat`.

The loop of `send_file` ends in one of two ways: the offset reaches the size, or
one call moves nothing, which `Stalls` describes without the loop.  A response that
was begun and then fails is what the last part of this file is about: the value
returned is negative with bytes already on the socket exactly under `LateFailure`
(`failsClean_iff`).
-/

namespace BareHttp

/-! ## The loop of `send_file` -/

section Transfer

variable (content : Bytes) (size : ℕ)

/-- The offset at which the loop of `send_file` ends. -/
def finalOffset : ℕ → ℕ → (ℕ → SendfileResult) → ℕ
  | 0, offset, _ => offset
  | fuel + 1, offset, results =>
    if offset < size then
      let moved := (results 0).moved content offset (size - offset)
      if moved = [] then offset
      else finalOffset fuel (offset + moved.length) (tail results)
    else offset

/-- The offset after `k` calls, none of which ended the loop. -/
def offsetAfter : ℕ → (ℕ → SendfileResult) → ℕ → ℕ
  | offset, _, 0 => offset
  | offset, results, k + 1 =>
    offsetAfter (offset + ((results 0).moved content offset (size - offset)).length)
      (tail results) k

/-- Some call is made short of the size and moves nothing: it fails, or the file has
no byte there. -/
def Stalls (offset : ℕ) (results : ℕ → SendfileResult) : Prop :=
  ∃ k, offsetAfter content size offset results k < size ∧
    (results k).moved content (offsetAfter content size offset results k)
      (size - offsetAfter content size offset results k) = []

theorem le_offsetAfter (offset : ℕ) (results : ℕ → SendfileResult) (k : ℕ) :
    offset ≤ offsetAfter content size offset results k := by
  induction k generalizing offset results with
  | zero => exact Nat.le_refl offset
  | succ k ih => exact Nat.le_trans (Nat.le_add_right _ _) (ih _ _)

theorem le_finalOffset (fuel offset : ℕ) (results : ℕ → SendfileResult) :
    offset ≤ finalOffset content size fuel offset results := by
  induction fuel generalizing offset results with
  | zero => exact Nat.le_refl offset
  | succ fuel ih =>
    simp only [finalOffset]
    split_ifs
    · exact Nat.le_refl offset
    · exact Nat.le_trans (Nat.le_add_right _ _) (ih _ _)
    · exact Nat.le_refl offset

variable {size} in
theorem not_stalls_of_le {offset : ℕ} (h : size ≤ offset) (results : ℕ → SendfileResult) :
    ¬ Stalls content size offset results := by
  rintro ⟨k, hk, -⟩
  have := le_offsetAfter content size offset results k
  omega

variable {content size} in
/-- A first call that moves something leaves the question to the calls after it. -/
theorem stalls_iff_of_moved {offset : ℕ} {results : ℕ → SendfileResult}
    (h : (results 0).moved content offset (size - offset) ≠ []) :
    Stalls content size offset results ↔
      Stalls content size (offset + ((results 0).moved content offset (size - offset)).length)
        (tail results) := by
  constructor
  · rintro ⟨k, hk, hmoved⟩
    cases k with
    | zero => exact absurd hmoved h
    | succ k => exact ⟨k, hk, hmoved⟩
  · rintro ⟨k, hk, hmoved⟩
    exact ⟨k + 1, hk, hmoved⟩

/-- **The loop falls short exactly when a call stalls.**  Each round moves at least a
byte, so the bytes left bound the rounds. -/
theorem finalOffset_lt_iff (fuel offset : ℕ) (results : ℕ → SendfileResult)
    (hfuel : size ≤ offset + fuel) :
    finalOffset content size fuel offset results < size ↔ Stalls content size offset results := by
  induction fuel generalizing offset results with
  | zero =>
    have h := not_stalls_of_le content hfuel results
    simp only [finalOffset]
    exact ⟨fun hlt => absurd hlt (by omega), fun hs => absurd hs h⟩
  | succ fuel ih =>
    simp only [finalOffset]
    by_cases hlt : offset < size
    · rw [if_pos hlt]
      by_cases hmoved : (results 0).moved content offset (size - offset) = []
      · rw [if_pos hmoved]
        exact ⟨fun _ => ⟨0, hlt, hmoved⟩, fun _ => hlt⟩
      · rw [if_neg hmoved, stalls_iff_of_moved hmoved]
        have hpos := List.length_pos_iff.2 hmoved
        exact ih _ _ (by omega)
    · rw [if_neg hlt]
      have h := not_stalls_of_le content (Nat.not_lt.1 hlt) results
      exact ⟨fun h' => absurd h' hlt, fun hs => absurd hs h⟩

theorem finalOffset_le (fuel offset : ℕ) (results : ℕ → SendfileResult) (h : offset ≤ size) :
    finalOffset content size fuel offset results ≤ size := by
  induction fuel generalizing offset results with
  | zero => exact h
  | succ fuel ih =>
    simp only [finalOffset]
    split_ifs
    · exact h
    · refine ih _ _ ?_
      cases results 0 with
      | some n => simp only [SendfileResult.moved, List.length_take]; omega
      | fail e => simpa [SendfileResult.moved] using h
    · exact h

/-- What one call moves is the next bytes of the file. -/
theorem moved_eq_take (r : SendfileResult) (offset len : ℕ) :
    r.moved content offset len =
      (content.drop offset).take (r.moved content offset len).length := by
  cases r with
  | some n => simp only [SendfileResult.moved, List.length_take, List.take_eq_take_iff]; omega
  | fail e => rfl

/-- **The loop of `send_file`** ends at `finalOffset`, with the bytes up to there sent. -/
theorem sendFileLoop_spec (fuel offset : ℕ) (w : World) :
    (sendFileLoop content size fuel offset w).1 =
        finalOffset content size fuel offset w.env.sendfile ∧
      (sendFileLoop content size fuel offset w).2.sent = w.sent ++
        (content.drop offset).take
          (finalOffset content size fuel offset w.env.sendfile - offset) := by
  induction fuel generalizing offset w with
  | zero => simp [sendFileLoop, finalOffset]
  | succ fuel ih =>
    simp only [sendFileLoop, finalOffset]
    by_cases hlt : offset < size
    · rw [if_pos hlt, if_pos hlt]
      by_cases hmoved : (w.env.sendfile 0).moved content offset (size - offset) = []
      · rw [if_pos hmoved, if_pos hmoved]
        exact ⟨rfl, by simp [World.sent]⟩
      · rw [if_neg hmoved, if_neg hmoved]
        have htake := moved_eq_take content (w.env.sendfile 0) offset (size - offset)
        generalize (w.env.sendfile 0).moved content offset (size - offset) = moved at htake ⊢
        obtain ⟨hoff, hsent⟩ := ih (offset + moved.length)
          (World.log { w with env := { w.env with sendfile := tail w.env.sendfile } }
            (.sendfile moved))
        refine ⟨hoff, hsent.trans ?_⟩
        have hle := le_finalOffset content size fuel (offset + moved.length) (tail w.env.sendfile)
        rw [World.sent_log, World.env_log]
        simp only [World.sent, acceptedBytes, List.append_nil, List.append_assoc]
        generalize finalOffset content size fuel (offset + moved.length) (tail w.env.sendfile) =
          final at hle ⊢
        have hsplit : final - offset = moved.length + (final - (offset + moved.length)) := by
          omega
        rw [hsplit, List.take_add, ← htake, List.drop_drop]
    · rw [if_neg hlt, if_neg hlt]
      exact ⟨rfl, by simp⟩

end Transfer

/-! ## The parts of a response -/

/-- The bytes a page puts on the socket. -/
def pageBytes (status : HttpStatus) (sends : ℕ → SendResult) : Bytes :=
  (errorHeaders status).take ((sends 0).accepted (errorHeaders status)) ++
    if (sends 0).failed then []
    else (errorBody status).take ((sends 1).accepted (errorBody status))

/-- The bytes `send_file` puts on the socket. -/
def fileBytes (opened : Except Errno Opened) (stat : Option Stat)
    (results : ℕ → SendfileResult) : Bytes :=
  match opened, stat with
  | .ok f, some st => f.content.take (finalOffset f.content st.stSize st.stSize 0 results)
  | _, _ => []

/-- `send_file` fails: the file does not open or has no size any more, or the
transfer stalls. -/
def FileFails (opened : Except Errno Opened) (stat : Option Stat)
    (results : ℕ → SendfileResult) : Prop :=
  match opened, stat with
  | .ok f, some st => Stalls f.content st.stSize 0 results
  | _, _ => True

theorem httpSendError_spec (status : HttpStatus) (w : World) :
    ((httpSendError status w).1 < 0 ↔ (w.env.send 0).failed = true) ∧
      (httpSendError status w).2.sent = w.sent ++ pageBytes status w.env.send := by
  obtain ⟨hret, henv, hsent⟩ := tcpSend_spec (errorHeaders status) w
  obtain ⟨-, -, hsent'⟩ := tcpSend_spec (errorBody status) (tcpSend (errorHeaders status) w).2
  unfold httpSendError pageBytes
  by_cases hneg : (tcpSend (errorHeaders status) w).1 < 0
  · have hfail := hret.1 hneg
    simp only [if_pos hneg, hfail, if_true, List.append_nil]
    exact ⟨by simp, hsent⟩
  · have hfail : ¬(w.env.send 0).failed = true := fun h => hneg (hret.2 h)
    simp only [if_neg hneg, if_neg hfail]
    refine ⟨by simp [hfail], ?_⟩
    simp only [hsent', hsent, henv, tail_apply, List.append_assoc]

theorem sendFile_spec (path : Bytes) (w : World) :
    ((sendFile path w).1 < 0 ↔ FileFails (w.env.openat2 0) (w.env.fstat 0) w.env.sendfile) ∧
      (sendFile path w).2.sent =
        w.sent ++ fileBytes (w.env.openat2 0) (w.env.fstat 0) w.env.sendfile := by
  obtain ⟨w₁, hopen, henv₁, hu₁⟩ := openSafe_spec path w
  obtain ⟨w₂, hstat, henv₂, hu₂⟩ := fstat_spec w₁
  simp only [henv₁] at hstat henv₂
  replace hu₂ := hu₁.trans hu₂
  unfold sendFile FileFails fileBytes
  simp only [hopen]
  cases w.env.openat2 0 with
  | error e => exact ⟨by simp, by simp [hu₁.sent_eq]⟩
  | ok f =>
    simp only [hstat]
    cases w.env.fstat 0 with
    | none => exact ⟨by simp, by simp [hu₂.sent_eq]⟩
    | some st =>
      obtain ⟨hoff, hsent⟩ := sendFileLoop_spec f.content st.stSize st.stSize 0 w₂
      have hiff := finalOffset_lt_iff f.content st.stSize st.stSize 0 w.env.sendfile
        (Nat.le_of_eq (Nat.zero_add st.stSize).symm)
      rw [hu₂.sendfile_eq] at hoff hsent
      rw [hu₂.sent_eq, List.drop_zero, Nat.sub_zero] at hsent
      simp only [hoff]
      by_cases hlt : finalOffset f.content st.stSize st.stSize 0 w.env.sendfile < st.stSize
      · simp only [if_pos hlt]
        exact ⟨⟨fun _ => hiff.1 hlt, by simp⟩, hsent⟩
      · simp only [if_neg hlt, World.sent_close]
        exact ⟨⟨by simp, fun h => absurd (hiff.2 h) hlt⟩, hsent⟩

/-! ## A whole answer -/

namespace Plan

/-- The bytes a plan puts on the socket.  A file is opened for the second time here,
and a header that cannot be sent is followed by a page. -/
def delivered (env : Env) : Plan → Bytes
  | .silent _ => []
  | .page status _ => pageBytes status env.send
  | .options header => header.take ((env.send 0).accepted header)
  | .file header _ =>
    header.take ((env.send 0).accepted header) ++
      if (env.send 0).failed then pageBytes .internalError (tail env.send)
      else fileBytes (env.openat2 1) (env.fstat 1) env.sendfile
  | .script header output =>
    header.take ((env.send 0).accepted header) ++
      if (env.send 0).failed then [] else output.take ((env.send 1).accepted output)

/-- The plan's return value is negative. -/
def Fails (env : Env) : Plan → Prop
  | .silent ret => ret < 0
  | .page _ none => (env.send 0).failed = true
  | .page _ (some ret) => ret < 0
  | .options _ => (env.send 0).failed = true
  | .file _ _ =>
    (env.send 0).failed = false ∧ FileFails (env.openat2 1) (env.fstat 1) env.sendfile
  | .script _ _ => (env.send 0).failed = true ∨ (env.send 1).failed = true

end Plan

/-- **Delivering a plan**, in a world whose socket results are those of `env`. -/
theorem deliver_spec (p : Plan) {env : Env} {w : World} (hsend : w.env.send = env.send)
    (hsendfile : w.env.sendfile = env.sendfile)
    (hfile : ∀ header path, p = .file header path →
      w.env.openat2 0 = env.openat2 1 ∧ w.env.fstat 0 = env.fstat 1) :
    ((deliver p w).1 < 0 ↔ p.Fails env) ∧ (deliver p w).2.sent = w.sent ++ p.delivered env := by
  cases p with
  | silent ret => exact ⟨Iff.rfl, by simp [deliver, Plan.delivered]⟩
  | page status ret =>
    obtain ⟨hret, hsent⟩ := httpSendError_spec status w
    rw [hsend] at hret hsent
    cases ret with
    | none => exact ⟨hret, hsent⟩
    | some ret => exact ⟨Iff.rfl, hsent⟩
  | options header =>
    obtain ⟨hret, -, hsent⟩ := tcpSend_spec header w
    rw [hsend] at hret hsent
    refine ⟨?_, hsent⟩
    simp only [deliver, Plan.Fails, ← hret]
    split_ifs with h
    · simp [h]
    · simp [h]
  | file header path =>
    obtain ⟨hopen, hstat⟩ := hfile header path rfl
    obtain ⟨hret, henv, hsent⟩ := tcpSend_spec header w
    rw [hsend] at hret hsent
    simp only [deliver, Plan.Fails, Plan.delivered]
    by_cases hneg : (tcpSend header w).1 < 0
    · obtain ⟨-, hpage⟩ := httpSendError_spec .internalError (tcpSend header w).2
      simp only [if_pos hneg, hret.1 hneg, if_true]
      refine ⟨by simp, ?_⟩
      simp only [hpage, hsent, henv, hsend, List.append_assoc]
    · have hfail : (env.send 0).failed = false := by
        simpa using fun h => hneg (hret.2 h)
      obtain ⟨hret', hsent'⟩ := sendFile_spec path (tcpSend header w).2
      simp only [henv, hopen, hstat, hsendfile] at hret' hsent'
      simp only [if_neg hneg, hfail, Bool.false_eq_true, if_false, true_and]
      refine ⟨?_, by rw [hsent', hsent, List.append_assoc]⟩
      rw [← hret']
      split_ifs with h
      · simp [h]
      · simp [h]
  | script header output =>
    obtain ⟨hret, henv, hsent⟩ := tcpSend_spec header w
    rw [hsend] at hret hsent
    simp only [deliver, Plan.Fails, Plan.delivered]
    by_cases hneg : (tcpSend header w).1 < 0
    · simp only [if_pos hneg, hret.1 hneg, if_true, List.append_nil]
      exact ⟨by simp, hsent⟩
    · have hfail : (env.send 0).failed = false := by
        simpa using fun h => hneg (hret.2 h)
      obtain ⟨hret', -, hsent'⟩ := tcpSend_spec output (tcpSend header w).2
      simp only [henv, hsend, tail_apply] at hret' hsent'
      simp only [if_neg hneg, hfail, Bool.false_eq_true, if_false, false_or]
      refine ⟨?_, by rw [hsent', hsent, List.append_assoc]⟩
      rw [← hret']
      split_ifs with h
      · simp [h]
      · simp [h]

/-- **`http_process_request`**: when its value is negative, and what it sends. -/
theorem httpProcessRequest_spec (sc : ServerConf) (request : HttpRequest) (w : World) :
    ((httpProcessRequest sc request w).1 < 0 ↔ (plan sc request w.env).Fails w.env) ∧
      (httpProcessRequest sc request w).2.sent =
        w.sent ++ (plan sc request w.env).delivered w.env := by
  obtain ⟨w', hu, heq, hfile⟩ := httpProcessRequest_eq_deliver sc request w
  have hspec := deliver_spec (plan sc request w.env) hu.send_eq hu.sendfile_eq
    fun header path hp => by simp [hfile header path hp]
  rwa [← heq, hu.sent_eq] at hspec

/-! ## Failing after the response was begun -/

/-- A negative return value means that nothing was sent. -/
def FailsClean (sc : ServerConf) (request : HttpRequest) (w : World) : Prop :=
  (httpProcessRequest sc request w).1 < 0 → (httpProcessRequest sc request w).2.sent = w.sent

/-- The answer is begun and then fails: the header block of a file is accepted and the
file is gone or the transfer stalls; the header block of a script is accepted and its
output is not; or a script's date does not format and the page about it is accepted. -/
def LateFailure (sc : ServerConf) (request : HttpRequest) (env : Env) : Prop :=
  (env.send 0).failed = false ∧
    match plan sc request env with
    | .file _ _ => FileFails (env.openat2 1) (env.fstat 1) env.sendfile
    | .script _ _ => (env.send 1).failed = true
    | .page _ (some ret) => ret < 0
    | _ => False

/-- A call that does not fail takes at least one byte of a text that has any. -/
theorem take_accepted_ne_nil {buf : Bytes} (hbuf : buf ≠ []) {r : SendResult}
    (hr : r.failed = false) : buf.take (r.accepted buf) ≠ [] := by
  have hpos := List.length_pos_iff.2 hbuf
  have hacc : 0 < r.accepted buf := by
    cases r with
    | all => exact hpos
    | some n => simp only [SendResult.accepted]; omega
    | fail e => exact absurd hr (by simp [SendResult.failed])
  rw [← List.length_pos_iff, List.length_take]
  omega

theorem accepted_of_failed {buf : Bytes} {r : SendResult} (hr : r.failed = true) :
    r.accepted buf = 0 := by
  cases r with
  | all => exact absurd hr (by simp [SendResult.failed])
  | some n => exact absurd hr (by simp [SendResult.failed])
  | fail e => rfl

/-- A text that starts with a status line is not empty. -/
theorem ne_nil_of_statusLine {status : HttpStatus} {buf : Bytes}
    (h : statusLine status <+: buf) : buf ≠ [] := by
  rintro rfl
  have hlen := h.length_le
  simp only [statusLine, crlf, List.length_append, List.length_cons, List.length_nil] at hlen
  omega

/-- **A failed request leaves the socket untouched unless it fails late.** -/
theorem failsClean_iff (sc : ServerConf) (request : HttpRequest) (w : World) :
    FailsClean sc request w ↔ ¬ LateFailure sc request w.env := by
  obtain ⟨hret, hsent⟩ := httpProcessRequest_spec sc request w
  have hwf := plan_wellFormed sc request w.env
  unfold FailsClean LateFailure
  rw [hret, hsent, List.append_right_eq_self]
  cases hplan : plan sc request w.env with
  | silent ret => simp [Plan.delivered]
  | page status ret =>
    have hne := ne_nil_of_statusLine (statusLine_prefix_errorHeaders status)
    cases hfail : (w.env.send 0).failed with
    | true => simp [Plan.delivered, pageBytes, hfail, accepted_of_failed hfail]
    | false =>
      have hsome := take_accepted_ne_nil hne hfail
      cases ret with
      | none => simp [Plan.Fails, hfail]
      | some ret => simp [Plan.delivered, pageBytes, hsome, Plan.Fails]
  | options header =>
    simp only [Plan.Fails, Plan.delivered, and_false, not_false_eq_true, iff_true]
    intro hfail
    rw [accepted_of_failed hfail, List.take_zero]
  | file header path =>
    rw [hplan] at hwf
    cases hfail : (w.env.send 0).failed with
    | true => simp [Plan.Fails, hfail]
    | false =>
      have hsome := take_accepted_ne_nil (ne_nil_of_statusLine hwf) hfail
      simp [Plan.Fails, Plan.delivered, hfail, hsome]
  | script header output =>
    rw [hplan] at hwf
    cases hfail : (w.env.send 0).failed with
    | true => simp [Plan.Fails, Plan.delivered, hfail, accepted_of_failed hfail]
    | false =>
      have hsome := take_accepted_ne_nil (ne_nil_of_statusLine hwf) hfail
      simp [Plan.Fails, Plan.delivered, hfail, hsome]

/-- The signature of the configuration the repository ships. -/
def sampleConf : ServerConf := ⟨ascii "barehttp"⟩

/-- A request for a file. -/
def getFile : HttpRequest :=
  { HttpRequest.zeroed with method := ascii "GET", url := ascii "/a.txt", version := 1 }

/-- The file is removed between the two times it is opened. -/
def vanishingFile : Env :=
  { Env.calm ⟨12, ascii "body"⟩ (ascii "Thu, 01 Jan 1970 00:00:00 GMT") with
    openat2 := fun n => if n = 0 then .ok ⟨12, ascii "body"⟩ else .error .enoent }

/-- The header block of the response is on the socket, and the value returned is
negative. -/
theorem vanishingFile_not_failsClean : ¬ FailsClean sampleConf getFile ⟨vanishingFile, []⟩ := by
  intro h
  have hneg : (httpProcessRequest sampleConf getFile ⟨vanishingFile, []⟩).1 < 0 := by
    decide +kernel
  have hsent : (httpProcessRequest sampleConf getFile ⟨vanishingFile, []⟩).2.sent ≠ [] := by
    decide +kernel
  exact hsent (h hneg)

end BareHttp
