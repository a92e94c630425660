import Mathlib.Data.Multiset.AddSub
import BareHttp.Http.OpenFiles
import BareHttp.Worker.Connection

/-!
# The system calls of one iteration

What a worker does to descriptors once it has read a request, as a list of system
calls.  The calls of `http_process_request` and `http_send_error` are the trace of the
model of these functions; behind them come the calls that end the iteration, in an
order that differs between its four ends.

A list of calls is `Sound` when it uses the client's descriptor only while it is open,
closes it, and closes no other descriptor than those it opened itself, up to a `send`
that reports `EPIPE`: that is the one result on which `tcp_send` closes the descriptor
behind its caller's back.  Every iteration is sound (`program_sound`).
-/

namespace BareHttp
namespace Pool

/-- A system call on a descriptor, or the call of `queue_del_active_fd`.  The calls
without an argument are on the client's descriptor; `epipe` is the `shutdown` that
`tcp_send` makes when its `send` reported `EPIPE`. -/
inductive SysCall where
  | openFile (fd : ℕ)
  | closeFile (fd : ℕ)
  | send
  | sendfile
  | epipe
  | shutdown
  | close
  | unregister
  deriving DecidableEq

/-- The calls an event of the trace stands for.  The `fork`, `write`, `read` and `waitpid`
of a script are on no descriptor of a client and take none; they are left out, which takes
them to return whenever they are made. -/
def calls : Event → List SysCall
  | .openat2 _ (some fd) => [.openFile fd]
  | .openat2 _ none => []
  | .close fd => [.closeFile fd]
  | .send _ _ => [.send]
  | .sendfile _ => [.sendfile]
  | .shutdown => [.epipe, .close]
  | .pipe ends => [.openFile ends.1, .openFile ends.2]
  | .fork _ => []
  | .write _ _ => []
  | .read _ _ => []
  | .waitpid _ => []

/-- The calls use the client's descriptor only while it is open and leave it closed,
and close only descriptors they hold, unless `EPIPE` is reported.  The two arguments
are whether the descriptor is open and what is held. -/
def Sound : Bool → Multiset ℕ → List SysCall → Prop
  | isOpen, _, [] => isOpen = false
  | isOpen, own, .openFile fd :: cs => Sound isOpen (fd ::ₘ own) cs
  | isOpen, own, .closeFile fd :: cs => fd ∈ own ∧ Sound isOpen (own.erase fd) cs
  | isOpen, own, .send :: cs => isOpen = true ∧ Sound isOpen own cs
  | isOpen, own, .sendfile :: cs => isOpen = true ∧ Sound isOpen own cs
  | _, _, .epipe :: _ => True
  | isOpen, own, .shutdown :: cs => isOpen = true ∧ Sound isOpen own cs
  | isOpen, own, .close :: cs => isOpen = true ∧ Sound false own cs
  | isOpen, own, .unregister :: cs => Sound isOpen own cs

/-- From `w` to `w'` the client's descriptor was only used, and what was held went from
`own` to `own'`: calls that are sound behind these are sound with these in front. -/
def Tidy (own own' : Multiset ℕ) (w w' : World) : Prop :=
  ∃ es, w'.trace = w.trace ++ es ∧
    ∀ cs, Sound true own' cs → Sound true own (es.flatMap calls ++ cs)

/-- Calls that are in order are sound up to what the ledger holds. -/
theorem Tidy.of_books {g : Bool} {own own' : Multiset ℕ} {w w' : World}
    (h : Books ⟨false, own⟩ ⟨g, own'⟩ w w') : Tidy own own' w w' := by
  obtain ⟨es, hes, hledger⟩ := h
  refine ⟨es, hes, fun cs hcs => ?_⟩
  clear hes
  induction es generalizing own with
  | nil =>
    obtain ⟨-, rfl⟩ := Ledger.mk.inj (Option.some.inj hledger)
    exact hcs
  | cons e es ih =>
    obtain ⟨l, hl, hrest⟩ := Option.bind_eq_some_iff.mp hledger
    rw [List.flatMap_cons, List.append_assoc]
    -- every event but `EPIPE` leaves the client's descriptor open
    cases e with
    | openat2 path fd =>
      cases fd with
      | none =>
        obtain rfl := Option.some.inj hl
        exact ih hrest
      | some fd =>
        obtain rfl : (⟨false, fd ::ₘ own⟩ : Ledger) = l := by simpa [Ledger.enter] using hl
        exact ih hrest
    | pipe ends =>
      obtain rfl : (⟨false, ends.2 ::ₘ ends.1 ::ₘ own⟩ : Ledger) = l := by
        simpa [Ledger.enter] using hl
      exact ih hrest
    | close fd =>
      obtain ⟨hmem, rfl⟩ : fd ∈ own ∧ (⟨false, own.erase fd⟩ : Ledger) = l := by
        simpa [Ledger.enter] using hl
      exact ⟨hmem, ih hrest⟩
    | send bytes accepted =>
      obtain rfl := Option.some.inj hl
      exact ⟨rfl, ih hrest⟩
    | sendfile bytes =>
      obtain rfl := Option.some.inj hl
      exact ⟨rfl, ih hrest⟩
    | shutdown => exact trivial
    | fork | write | read | waitpid =>
      obtain rfl := Option.some.inj hl
      exact ih hrest

/-! ## The iteration -/

theorem answer_tidy (sc : ServerConf) (received : Worker.Received) (w : World) :
    ∃ own, Tidy 0 own w (Worker.answer sc received w).2 := by
  cases received with
  | complete request =>
    obtain ⟨g, h⟩ := httpProcessRequest_books 0 sc request w
    refine ⟨leftOpen sc request w.env + 0, ?_⟩
    unfold Worker.answer
    dsimp only
    split
    · obtain ⟨g', h'⟩ := httpSendError_books g _ .internalError (httpProcessRequest sc request w).2
      exact .of_books (h.trans h')
    · exact .of_books h
  | rejected =>
    unfold Worker.answer
    obtain ⟨g, h⟩ := httpSendError_books false 0 .badRequest w
    exact ⟨0, .of_books h⟩
  | failed =>
    unfold Worker.answer
    obtain ⟨g, h⟩ := httpSendError_books false 0 .internalError w
    exact ⟨0, .of_books h⟩
  | closed | timedOut | overrun => exact ⟨0, .of_books (.refl _ w)⟩

/-- Whether `queue_del_active_fd` comes before `tcp_shutdown` at the end of the
iteration: it does behind the header loop and behind a request that was processed, and
it comes after it behind the body loop and behind a failure. -/
def unregistersFirst (sc : ServerConf) (st : Worker.State) (c : Worker.Connection) : Bool :=
  match Worker.readHeader c.ending st c.pieces with
  | .stop _ _ => true
  | .block _ _ _ =>
    let received := (Worker.receive st c.pieces c.ending).1
    match received with
    | .complete _ => 0 ≤ (Worker.answer sc received ⟨c.env, []⟩).1
    | _ => false

/-- The calls that end the iteration. -/
def ending (first : Bool) : List SysCall :=
  if first then [.unregister, .shutdown, .close] else [.shutdown, .close, .unregister]

/-- **The system calls of an iteration**, once everything was read. -/
def program (sc : ServerConf) (st : Worker.State) (c : Worker.Connection) : List SysCall :=
  let received := (Worker.receive st c.pieces c.ending).1
  (Worker.answer sc received ⟨c.env, []⟩).2.trace.flatMap calls ++
    ending (unregistersFirst sc st c)

theorem ending_sound (first : Bool) (own : Multiset ℕ) : Sound true own (ending first) := by
  cases first with
  | true => exact ⟨rfl, rfl, rfl⟩
  | false => exact ⟨rfl, rfl, rfl⟩

/-- **An iteration is sound.** -/
theorem program_sound (sc : ServerConf) (st : Worker.State) (c : Worker.Connection) :
    Sound true 0 (program sc st c) := by
  obtain ⟨own, es, hes, hsound⟩ :=
    answer_tidy sc (Worker.receive st c.pieces c.ending).1 ⟨c.env, []⟩
  unfold program
  dsimp only
  generalize unregistersFirst sc st c = first
  generalize (Worker.answer sc (Worker.receive st c.pieces c.ending).1 ⟨c.env, []⟩).2 = w at hes ⊢
  rw [hes]
  exact hsound _ (ending_sound first own)

end Pool
end BareHttp
