import BareHttp.Http.Request

/-!
# The system calls behind a response

`http_process_request` talks to the kernel and the C library.  What they answer is
an `Env`: one sequence of results for each kind of call, consumed in call order.
A property proved for every `Env` holds for every sequence of results.  The calls
made, with the bytes each moved, are the trace of a `World`.

Results that depend on the length asked for are stated so that every value of the
result type is possible: a `send` or `sendfile` that takes `n + 1` bytes takes the
whole buffer if that is shorter, and a `read` delivers at most the room it is given.

Logging (`logs_print`, `get_client_ip_port`, `printf`, `perror`) has no effect on
the response and is left out.
-/

namespace BareHttp

/-- The values of `errno` the code looks at. -/
inductive Errno where
  | eacces
  | eloop
  | enoent
  | eagain
  | epipe
  | other (code : ℕ)
  deriving DecidableEq

/-- The fields of `struct stat` the code reads. -/
structure Stat where
  stSize : ℕ
  stMtime : Int
  deriving DecidableEq

/-- An open file: its descriptor and what reading through it yields. -/
structure Opened where
  fd : ℕ
  content : Bytes
  deriving DecidableEq

/-- The result of `send`: the whole buffer, some bytes of it, or an error. -/
inductive SendResult where
  | all
  | some (n : ℕ)
  | fail (e : Errno)
  deriving DecidableEq

/-- The result of `sendfile`. -/
inductive SendfileResult where
  | some (n : ℕ)
  | fail (e : Errno)
  deriving DecidableEq

/-- What the system calls will answer, each kind in call order. -/
structure Env where
  openat2 : ℕ → Except Errno Opened
  fstat : ℕ → Option Stat
  send : ℕ → SendResult
  sendfile : ℕ → SendfileResult
  pipe : ℕ → Option (ℕ × ℕ)
  fork : ℕ → Option ℕ
  write : ℕ → Option ℕ
  read : ℕ → Option (UInt8 × Bytes)
  strftime : ℕ → Option Bytes

/-- Results without a failure: every path opens as `f`, every `send` takes all it is
given, `sendfile` moves up to 4096 bytes, and a script writes nothing. -/
def Env.calm (f : Opened) (date : Bytes) : Env where
  openat2 := fun _ => .ok f
  fstat := fun _ => some ⟨f.content.length, 0⟩
  send := fun _ => .all
  sendfile := fun _ => .some 4095
  pipe := fun n => some (20 + 2 * n, 21 + 2 * n)
  fork := fun _ => some 100
  write := fun _ => some 4095
  read := fun _ => none
  strftime := fun _ => some date

/-- A call that was made.  `send`, `sendfile` and `shutdown` are on the client's
descriptor.  The path of `openat2` is `none` where the pointer passed is behind the end
of the string it comes from. -/
inductive Event where
  | openat2 (path : Option Bytes) (fd : Option ℕ)
  | close (fd : ℕ)
  | send (bytes : Bytes) (accepted : ℕ)
  | sendfile (bytes : Bytes)
  | shutdown
  | pipe (ends : ℕ × ℕ)
  | fork (pid : ℕ)
  | write (fd : ℕ) (bytes : Option Bytes)
  | read (fd : ℕ) (bytes : Bytes)
  | waitpid (pid : ℕ)
  deriving DecidableEq

/-- The answers to come and the calls made. -/
structure World where
  env : Env
  trace : List Event

/-- The rest of a sequence of results. -/
def tail {α : Type} (r : ℕ → α) : ℕ → α := fun n => r (n + 1)

@[simp] theorem tail_apply {α : Type} (r : ℕ → α) (n : ℕ) : tail r n = r (n + 1) := rfl

/-- The bytes the client's socket accepted. -/
def acceptedBytes : List Event → Bytes
  | [] => []
  | .send bytes accepted :: es => bytes.take accepted ++ acceptedBytes es
  | .sendfile bytes :: es => bytes ++ acceptedBytes es
  | _ :: es => acceptedBytes es

@[simp] theorem acceptedBytes_nil : acceptedBytes [] = [] := rfl

theorem acceptedBytes_append (es fs : List Event) :
    acceptedBytes (es ++ fs) = acceptedBytes es ++ acceptedBytes fs := by
  induction es with
  | nil => rfl
  | cons e es ih => cases e <;> simp [acceptedBytes, ih]

namespace World

/-- The world after one more call. -/
def log (w : World) (e : Event) : World := { w with trace := w.trace ++ [e] }

/-- The bytes accepted so far. -/
def sent (w : World) : Bytes := acceptedBytes w.trace

@[simp] theorem env_log (w : World) (e : Event) : (w.log e).env = w.env := rfl

theorem sent_log (w : World) (e : Event) : (w.log e).sent = w.sent ++ acceptedBytes [e] :=
  acceptedBytes_append _ _

/-- `close`. -/
def close (w : World) (fd : ℕ) : World := w.log (.close fd)

@[simp] theorem env_close (w : World) (fd : ℕ) : (w.close fd).env = w.env := rfl

@[simp] theorem sent_close (w : World) (fd : ℕ) : (w.close fd).sent = w.sent := by
  simp [close, sent_log, acceptedBytes]

end World

/-- How many bytes of `buf` a `send` with this result takes. -/
def SendResult.accepted (buf : Bytes) : SendResult → ℕ
  | .all => buf.length
  | .some n => min (n + 1) buf.length
  | .fail _ => 0

/-- `tcp_shutdown` on the client's descriptor: `shutdown` and `close`. -/
def tcpShutdown (w : World) : World := w.log .shutdown

/-- `tcp_send` on the client's descriptor.  A peer that is gone makes it shut the
descriptor down. -/
def tcpSend (buf : Bytes) (w : World) : Int × World :=
  let w' := { w with env := { w.env with send := tail w.env.send } }
  match w.env.send 0 with
  | .all => (buf.length, w'.log (.send buf buf.length))
  | .some n => ((min (n + 1) buf.length : ℕ), w'.log (.send buf (min (n + 1) buf.length)))
  | .fail .epipe => (-1, tcpShutdown (w'.log (.send buf 0)))
  | .fail _ => (-1, w'.log (.send buf 0))

/-- The result of a `send` is an error. -/
def SendResult.failed : SendResult → Bool
  | .fail _ => true
  | _ => false

/-- **`tcp_send`**, in terms of the next result: it is negative exactly on an error,
and the bytes accepted are a first part of the buffer. -/
theorem tcpSend_spec (buf : Bytes) (w : World) :
    ((tcpSend buf w).1 < 0 ↔ (w.env.send 0).failed = true) ∧
      (tcpSend buf w).2.env = { w.env with send := tail w.env.send } ∧
      (tcpSend buf w).2.sent = w.sent ++ buf.take ((w.env.send 0).accepted buf) := by
  unfold tcpSend
  cases hr : w.env.send 0 with
  | all =>
    refine ⟨?_, rfl, ?_⟩
    · simp only [SendResult.failed, Bool.false_eq_true, iff_false]
      omega
    · simp [World.sent, World.log, acceptedBytes_append, acceptedBytes, SendResult.accepted]
  | some n =>
    refine ⟨?_, rfl, ?_⟩
    · simp only [SendResult.failed, Bool.false_eq_true, iff_false]
      omega
    · simp [World.sent, World.log, acceptedBytes_append, acceptedBytes, SendResult.accepted]
  | fail e =>
    have hsent : ∀ f : List Event, acceptedBytes f = [] →
        acceptedBytes (w.trace ++ [.send buf 0] ++ f) =
          w.sent ++ buf.take (SendResult.accepted buf (.fail e)) := by
      intro f hf
      simp [World.sent, acceptedBytes_append, acceptedBytes, SendResult.accepted, hf]
    cases e with
    | epipe => exact ⟨by simp [SendResult.failed], rfl, hsent [.shutdown] rfl⟩
    | eacces | eloop | enoent | eagain | other =>
      refine ⟨by simp [SendResult.failed], rfl, ?_⟩
      have h := hsent [] rfl
      rwa [List.append_nil] at h

end BareHttp
