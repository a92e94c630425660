import Mathlib.Data.List.TakeDrop
import BareHttp.Epoll.Client
import BareHttp.Http.Delivery

/-!
# What the epoll server sends on a connection

`connection` runs the client branch over everything `recv` returns on one
connection and follows a dispatched request to the socket calls behind it.  The
return value of `http_process_request` is discarded, and the descriptor is closed
right after it.

When does the client get a whole response, on a socket that never fails?  Exactly if the
delivery of the response is not broken off (`deliversWhole_iff_unbroken`).
-/

namespace BareHttp
namespace Epoll

/-- One connection: the outcome of the last event handled, and the world when the
server is done with it.  Events behind a close are not read. -/
def connection (sc : ServerConf) : ClientData → List RecvResult → World → ClientOutcome × World
  | cd, [], w => (.keep cd, w)
  | cd, r :: rs, w =>
    match clientIo cd r with
    | .keep cd' => connection sc cd' rs w
    | .close cause => (.close cause, w)
    | .dispatch rq => (.dispatch rq, (httpProcessRequest sc rq w).2)
    | .corrupt => (.corrupt, w)

/-- The event that ends the connection, with the state it finds. -/
def closingEvent : ClientData → List RecvResult → Option (ClientData × RecvResult)
  | _, [] => none
  | cd, r :: rs =>
    match clientIo cd r with
    | .keep cd' => closingEvent cd' rs
    | _ => some (cd, r)

/-- What is sent on a connection is sent for the request its last event dispatches. -/
theorem connection_of_closingEvent (sc : ServerConf) (cd : ClientData) (rs : List RecvResult)
    (w : World) :
    (closingEvent cd rs = none ∧ ∃ cd', connection sc cd rs w = (.keep cd', w)) ∨
      ∃ cd' r, closingEvent cd rs = some (cd', r) ∧
        (connection sc cd rs w).1 = clientIo cd' r ∧
        (connection sc cd rs w).2 =
          match clientIo cd' r with
          | .dispatch rq => (httpProcessRequest sc rq w).2
          | _ => w := by
  induction rs generalizing cd with
  | nil => exact Or.inl ⟨rfl, cd, rfl⟩
  | cons r rs ih =>
    cases hio : clientIo cd r with
    | keep cd' => simpa only [connection, closingEvent, hio] using ih cd'
    | close cause => exact Or.inr ⟨cd, r, by simp [closingEvent, hio], by simp [connection, hio]⟩
    | dispatch rq => exact Or.inr ⟨cd, r, by simp [closingEvent, hio], by simp [connection, hio]⟩
    | corrupt => exact Or.inr ⟨cd, r, by simp [closingEvent, hio], by simp [connection, hio]⟩

/-! ## Whole responses -/

/-- Every `send` and `sendfile` takes some bytes or would block, and the file is as
long as its size says, so `sendfile` does not find its end early. -/
structure NeverFails (env : Env) : Prop where
  send : ∀ n e, env.send n = .fail e → e = .eagain
  sendfile : ∀ n e, env.sendfile n = .fail e → e = .eagain
  file : ∀ f st, env.openat2 1 = .ok f → env.fstat 1 = some st → st.stSize ≤ f.content.length

/-- The response a plan stands for: header block and body.  There is none for a
request that is not answered, or when the file cannot be opened to be sent. -/
def wholeResponse (env : Env) : Plan → Option Bytes
  | .silent _ => none
  | .page status _ => some (errorHeaders status ++ errorBody status)
  | .options header => some header
  | .file header _ =>
    match env.openat2 1, env.fstat 1 with
    | .ok f, some st => some (header ++ f.content.take st.stSize)
    | _, _ => none
  | .script header output => some (header ++ output)

/-- The call takes all of `buf`. -/
def TakesAll (r : SendResult) (buf : Bytes) : Prop := r.accepted buf = buf.length

/-- A response is planned, every text goes out in one call, and the file opens and
goes out without a stall. -/
def Unbroken (env : Env) : Plan → Prop
  | .silent _ => False
  | .page status _ =>
    TakesAll (env.send 0) (errorHeaders status) ∧ TakesAll (env.send 1) (errorBody status)
  | .options header => TakesAll (env.send 0) header
  | .file header _ =>
    TakesAll (env.send 0) header ∧ ¬ FileFails (env.openat2 1) (env.fstat 1) env.sendfile
  | .script header output => TakesAll (env.send 0) header ∧ TakesAll (env.send 1) output

theorem accepted_le (r : SendResult) (buf : Bytes) : r.accepted buf ≤ buf.length := by
  cases r with
  | all => exact Nat.le_refl _
  | some n => exact Nat.min_le_right _ _
  | fail e => exact Nat.zero_le _

theorem take_accepted_eq_iff (r : SendResult) (buf : Bytes) :
    buf.take (r.accepted buf) = buf ↔ TakesAll r buf := by
  have hle := accepted_le r buf
  unfold TakesAll
  rw [List.take_eq_self_iff]
  omega

/-- Two texts in two parts, the first of each taken from the front: they agree only
when both parts are whole. -/
theorem append_take_eq_iff {a b a' b' : Bytes} (ha : a' <+: a) (hb : b' <+: b) :
    a' ++ b' = a ++ b ↔ a' = a ∧ b' = b := by
  constructor
  · intro h
    have hlen := congrArg List.length h
    simp only [List.length_append] at hlen
    have hla := ha.length_le
    have hlb := hb.length_le
    exact ⟨ha.eq_of_length (by omega), hb.eq_of_length (by omega)⟩
  · rintro ⟨rfl, rfl⟩
    rfl

theorem not_takesAll_of_failed {r : SendResult} {buf : Bytes} (hbuf : buf ≠ [])
    (hr : r.failed = true) : ¬ TakesAll r buf := by
  have hpos := List.length_pos_iff.2 hbuf
  rw [TakesAll, accepted_of_failed hr]
  omega

/-- What is left of the page for an internal error, after any two calls, does not start
like a response that succeeded: either the tenth byte is wrong, or the page follows too
early. -/
theorem not_statusLine_ok_prefix_pageBytes (sends : ℕ → SendResult) :
    ¬ statusLine .ok <+: pageBytes .internalError sends := by
  rintro ⟨rest, h⟩
  obtain ⟨b, hb⟩ : ∃ b, pageBytes .internalError sends =
      (errorHeaders .internalError).take ((sends 0).accepted (errorHeaders .internalError)) ++
        (errorBody .internalError).take b := by
    unfold pageBytes
    split_ifs
    · exact ⟨0, rfl⟩
    · exact ⟨_, rfl⟩
  have ha := accepted_le (sends 0) (errorHeaders .internalError)
  rw [hb] at h
  generalize (sends 0).accepted (errorHeaders .internalError) = a at h ha
  have hlen : 10 ≤ (errorHeaders .internalError).length := by decide +kernel
  have hok : (statusLine .ok).length = 17 := by decide +kernel
  have hget : ∀ i < 17, ((errorHeaders .internalError).take a ++
      (errorBody .internalError).take b)[i]? = (statusLine .ok)[i]? := by
    intro i hi
    rw [← h, List.getElem?_append_left (by omega)]
  by_cases hten : 10 ≤ a
  · have hnine := hget 9 (by omega)
    rw [List.getElem?_append_left (by rw [List.length_take]; omega),
      List.getElem?_take_of_lt (by omega)] at hnine
    exact absurd hnine (by decide +kernel)
  · have hnext := hget a (by omega)
    rw [List.getElem?_append_right (by rw [List.length_take]; omega), List.length_take,
      Nat.min_eq_left ha, Nat.sub_self] at hnext
    have hfirst : ((errorBody .internalError).take b)[0]? = none ∨
        ((errorBody .internalError).take b)[0]? = some 60 := by
      cases b with
      | zero => exact Or.inl rfl
      | succ b => exact Or.inr (by rw [List.getElem?_take_of_lt (by omega)]; decide +kernel)
    have hline : ∀ i < 10, (statusLine .ok)[i]? ≠ none ∧ (statusLine .ok)[i]? ≠ some 60 := by
      decide +kernel
    rw [hnext] at hfirst
    rcases hfirst with hfirst | hfirst
    · exact (hline a (by omega)).1 hfirst
    · exact (hline a (by omega)).2 hfirst

/-- **A plan puts its whole response on the socket exactly when it is unbroken.** -/
theorem wholeResponse_eq_delivered_iff {env : Env} (hnf : NeverFails env) {p : Plan}
    (hwf : p.WellFormed) : wholeResponse env p = some (p.delivered env) ↔ Unbroken env p := by
  cases p with
  | silent ret => simp [wholeResponse, Unbroken]
  | page status ret =>
    have hne := ne_nil_of_statusLine (statusLine_prefix_errorHeaders status)
    simp only [wholeResponse, Unbroken, Plan.delivered, pageBytes, Option.some.injEq]
    cases hfail : (env.send 0).failed with
    | true => simp [accepted_of_failed hfail, not_takesAll_of_failed hne hfail, hne]
    | false =>
      rw [if_neg (by simp), eq_comm, append_take_eq_iff (List.take_prefix _ _)
        (List.take_prefix _ _), take_accepted_eq_iff, take_accepted_eq_iff]
  | options header =>
    simp only [wholeResponse, Unbroken, Plan.delivered, Option.some.injEq]
    rw [eq_comm, take_accepted_eq_iff]
  | script header output =>
    have hne := ne_nil_of_statusLine hwf
    simp only [wholeResponse, Unbroken, Plan.delivered, Option.some.injEq]
    cases hfail : (env.send 0).failed with
    | true => simp [accepted_of_failed hfail, not_takesAll_of_failed hne hfail, hne]
    | false =>
      rw [if_neg (by simp), eq_comm, append_take_eq_iff (List.take_prefix _ _)
        (List.take_prefix _ _), take_accepted_eq_iff, take_accepted_eq_iff]
  | file header path =>
    have hne := ne_nil_of_statusLine hwf
    simp only [wholeResponse, Unbroken, Plan.delivered, FileFails, fileBytes]
    have hfile := hnf.file
    cases hopen : env.openat2 1 with
    | error e => simp
    | ok f =>
      cases hstat : env.fstat 1 with
      | none => simp
      | some st =>
        simp only [Option.some.injEq]
        cases hfail : (env.send 0).failed with
        | true =>
          simp only [accepted_of_failed hfail, List.take_zero, List.nil_append, if_true,
            not_takesAll_of_failed hne hfail, false_and, iff_false]
          intro h
          refine not_statusLine_ok_prefix_pageBytes (tail env.send) ?_
          rw [← h]
          exact hwf.trans (List.prefix_append _ _)
        | false =>
          have hlen := hfile f st hopen hstat
          have hle := finalOffset_le f.content st.stSize st.stSize 0 env.sendfile
            (Nat.zero_le st.stSize)
          have hiff := finalOffset_lt_iff f.content st.stSize st.stSize 0 env.sendfile
            (Nat.le_of_eq (Nat.zero_add st.stSize).symm)
          rw [if_neg (by simp), eq_comm, append_take_eq_iff (List.take_prefix _ _)
            (List.take_prefix_take_left hle), take_accepted_eq_iff, ← hiff, Nat.not_lt]
          refine and_congr_right fun _ => ?_
          rw [List.take_eq_take_iff]
          omega

/-- The bytes sent on a connection that ends in a dispatch. -/
theorem sent_of_dispatch {sc : ServerConf} {cd : ClientData} {rs : List RecvResult} {env : Env}
    {rq : HttpRequest} (h : (connection sc cd rs ⟨env, []⟩).1 = .dispatch rq) :
    (connection sc cd rs ⟨env, []⟩).2.sent = (plan sc rq env).delivered env := by
  rcases connection_of_closingEvent sc cd rs ⟨env, []⟩ with ⟨-, cd', hc⟩ | ⟨cd', r, -, h1, h2⟩
  · rw [hc] at h
    exact absurd h (by simp)
  · rw [h] at h1
    rw [h2, ← h1]
    exact (httpProcessRequest_spec sc rq ⟨env, []⟩).2

/-- The request dispatched on the connection gets its whole response. -/
def DeliversWhole (sc : ServerConf) (cd : ClientData) (rs : List RecvResult) (env : Env) : Prop :=
  ∀ rq, (connection sc cd rs ⟨env, []⟩).1 = .dispatch rq →
    wholeResponse env (plan sc rq env) = some (connection sc cd rs ⟨env, []⟩).2.sent

/-- **A dispatched request gets its whole response exactly when it is answered and
nothing goes out in part.** -/
theorem deliversWhole_iff_unbroken {sc : ServerConf} {cd : ClientData} {rs : List RecvResult}
    {env : Env} {rq : HttpRequest} (hnf : NeverFails env)
    (h : (connection sc cd rs ⟨env, []⟩).1 = .dispatch rq) :
    DeliversWhole sc cd rs env ↔ Unbroken env (plan sc rq env) := by
  have hiff := wholeResponse_eq_delivered_iff hnf (plan_wellFormed sc rq env)
  rw [← sent_of_dispatch h] at hiff
  rw [← hiff]
  constructor
  · intro hd
    exact hd rq h
  · intro hw rq' h'
    obtain rfl := ClientOutcome.dispatch.inj (h.symm.trans h')
    exact hw

/-- A request for a file, in one piece. -/
def fileEvents : List RecvResult := [.data (ascii "GET /a.txt HTTP/1.1\r\n\r\n")]

/-- A file of four bytes that all fit. -/
def roomyEnv : Env := Env.calm ⟨12, ascii "body"⟩ (ascii "Thu, 01 Jan 1970 00:00:00 GMT")

/-- The same file over a socket that takes one byte of it and then would block. -/
def tightEnv : Env :=
  { roomyEnv with sendfile := fun n => if n = 0 then .some 0 else .fail .eagain }

/-- The request of `fileEvents`, as it is dispatched. -/
def fileRequest : HttpRequest :=
  (httpParseRequest (ascii "GET /a.txt HTTP/1.1\r\n\r\n") .zeroed 0).2

theorem fileEvents_dispatch (env : Env) :
    (connection sampleConf (newClient 7) fileEvents ⟨env, []⟩).1 = .dispatch fileRequest := by
  rfl

theorem roomyEnv_neverFails : NeverFails roomyEnv where
  send := fun _ _ h => absurd h (by simp [roomyEnv, Env.calm])
  sendfile := fun _ _ h => absurd h (by simp [roomyEnv, Env.calm])
  file := by
    rintro f st hf hst
    obtain rfl := Except.ok.inj hf
    obtain rfl := Option.some.inj hst
    exact Nat.le_refl _

theorem tightEnv_neverFails : NeverFails tightEnv where
  send := roomyEnv_neverFails.send
  sendfile := by
    intro n e h
    simp only [tightEnv] at h
    split_ifs at h
    exact (SendfileResult.fail.inj h).symm
  file := roomyEnv_neverFails.file

theorem tightEnv_not_deliversWhole :
    NeverFails tightEnv ∧ ¬ DeliversWhole sampleConf (newClient 7) fileEvents tightEnv := by
  refine ⟨tightEnv_neverFails, fun h => ?_⟩
  have hne : wholeResponse tightEnv (plan sampleConf fileRequest tightEnv) ≠
      some (connection sampleConf (newClient 7) fileEvents ⟨tightEnv, []⟩).2.sent := by
    decide +kernel
  exact hne (h fileRequest (fileEvents_dispatch tightEnv))

theorem roomyEnv_unbroken {p : Plan} (hplan : plan sampleConf fileRequest roomyEnv = p) :
    Unbroken roomyEnv p := by
  have hwhole : (wholeResponse roomyEnv (plan sampleConf fileRequest roomyEnv)).isSome = true := by
    decide +kernel
  have hoff : ¬ Stalls (ascii "body") (ascii "body").length 0 (fun _ => .some 4095) := by
    rw [← finalOffset_lt_iff _ _ (ascii "body").length _ _ (by decide)]
    decide
  rw [hplan] at hwhole
  cases p with
  | silent ret => exact absurd hwhole (by simp [wholeResponse])
  | page status ret => exact ⟨rfl, rfl⟩
  | options header => exact rfl
  | file header path => exact ⟨rfl, hoff⟩
  | script header output => exact ⟨rfl, rfl⟩

theorem roomyEnv_deliversWhole :
    NeverFails roomyEnv ∧ DeliversWhole sampleConf (newClient 7) fileEvents roomyEnv := by
  refine ⟨roomyEnv_neverFails, ?_⟩
  rw [deliversWhole_iff_unbroken roomyEnv_neverFails (fileEvents_dispatch roomyEnv)]
  generalize hplan : plan sampleConf fileRequest roomyEnv = p
  exact roomyEnv_unbroken hplan

end Epoll
end BareHttp
