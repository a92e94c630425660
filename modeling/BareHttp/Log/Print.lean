import Mathlib.Data.List.Forall2
import BareHttp.Foundation.Mutex
import BareHttp.Foundation.Separator
import BareHttp.Parser.Pico

/-!
# The log file

`logs_print` of `srclib/logs.c`, which `main` and all workers call with the same `log_file`.  A
record is written by three calls of `fprintf`, and what keeps the records of two threads apart is
the mutex around them.  It is given up on all four ways out, so that a failing `fprintf` cuts a
record short and does no more.

The date is formatted in front of the mutex and the message by `vfprintf` behind it; both are
texts here.  An `fprintf` that fails may have written a part of its text.
-/

namespace BareHttp
namespace Log

open Mutex Pico Transition

/-- `log_type`.  The last one stands for the other values of the C type. -/
inductive LogType where
  | error
  | warning
  | info
  | other
  deriving DecidableEq

/-- `get_log_type_name`. -/
def getLogTypeName : LogType → Bytes
  | .error => ascii "ERRR"
  | .warning => ascii "WARN"
  | .info => ascii "INFO"
  | .other => ascii "UNKN"

/-- A call of `logs_print`, with the date and the message as they are printed. -/
structure LogCall where
  type : LogType
  date : Bytes
  message : Bytes
  deriving DecidableEq

namespace LogCall

/-- The text of the first `fprintf`. -/
def head (c : LogCall) : Bytes :=
  ascii "[" ++ c.date ++ ascii "] [" ++ getLogTypeName c.type ++ ascii "] "

/-- A record without its end. -/
def text (c : LogCall) : Bytes := c.head ++ c.message

/-- A record. -/
def line (c : LogCall) : Bytes := c.text ++ [lf]

end LogCall

/-- The three calls of `fprintf`. -/
inductive Piece where
  | head
  | message
  | newline
  deriving DecidableEq

/-- A call of `logs_print` in front of one of its `fprintf`s. -/
structure LogPoint where
  call : LogCall
  piece : Piece
  deriving DecidableEq

/-- What the next `fprintf` prints. -/
def LogPoint.next (p : LogPoint) : Bytes :=
  match p.piece with
  | .head => p.call.head
  | .message => p.call.message
  | .newline => [lf]

/-- What is printed of a record in front of it. -/
def LogPoint.printed (p : LogPoint) : Bytes :=
  match p.piece with
  | .head => []
  | .message => p.call.head
  | .newline => p.call.text

/-- The result of an `fprintf`: all of its text, or an error behind some bytes of it. -/
inductive PrintResult where
  | all
  | failed (n : ℕ)
  deriving DecidableEq

/-- `logs_print`, between taking the mutex and giving it up. -/
def logsPrint : Body Bytes LogCall LogPoint PrintResult Int where
  entry c := ⟨c, .head⟩
  act p file
    | .failed n => (file ++ p.next.take n, .inr (-1))
    | .all =>
      match p.piece with
      | .head => (file ++ p.next, .inl ⟨p.call, .message⟩)
      | .message => (file ++ p.next, .inl ⟨p.call, .newline⟩)
      | .newline => (file ++ p.next, .inr 0)

/-- What a call that returned `r` has left in the file. -/
def Recorded (c : LogCall) (r : Int) (record : Bytes) : Prop :=
  r = 0 ∧ record = c.line ∨ r = -1 ∧ record <+: c.line

/-! ## One call alone -/

theorem printed_append_next (p : LogPoint) : p.printed ++ p.next <+: p.call.line := by
  obtain ⟨c, piece⟩ := p
  cases piece with
  | head => exact ⟨c.message ++ [lf], by simp [LogPoint.printed, LogPoint.next, LogCall.line,
      LogCall.text]⟩
  | message => exact ⟨[lf], by simp [LogPoint.printed, LogPoint.next, LogCall.line, LogCall.text]⟩
  | newline => exact ⟨[], by simp [LogPoint.printed, LogPoint.next, LogCall.line]⟩

/-- A call that is not done has printed what is in front of its next `fprintf`. -/
theorem steps_logsPrint {c : LogCall} {file file' : Bytes} {p : LogPoint}
    (h : logsPrint.Steps (logsPrint.entry c) file p file') :
    p.call = c ∧ file' = file ++ p.printed := by
  induction h with
  | refl => exact ⟨rfl, by simp [logsPrint, LogPoint.printed]⟩
  | @act q q' y z w _ hact ih =>
    obtain ⟨rfl, rfl⟩ := ih
    obtain ⟨call, piece⟩ := q
    cases w with
    | failed n => simp [logsPrint] at hact
    | all =>
      cases piece with
      | head | message =>
        simp only [logsPrint, Prod.mk.injEq, Sum.inl.injEq] at hact
        obtain ⟨rfl, rfl⟩ := hact
        exact ⟨rfl, by simp [LogPoint.printed, LogPoint.next, LogCall.text]⟩
      | newline => simp [logsPrint] at hact

/-- A call that is done has left a record, or the beginning of one. -/
theorem executes_logsPrint {c : LogCall} {file file' : Bytes} {r : Int}
    (h : logsPrint.Executes c file r file') :
    ∃ record, file' = file ++ record ∧ Recorded c r record := by
  obtain ⟨p, z, w, hsteps, hact⟩ := h
  obtain ⟨rfl, rfl⟩ := steps_logsPrint hsteps
  have hpart := printed_append_next p
  obtain ⟨call, piece⟩ := p
  cases w with
  | failed n =>
    simp only [logsPrint, Prod.mk.injEq, Sum.inr.injEq] at hact
    obtain ⟨rfl, rfl⟩ := hact
    refine ⟨_, by rw [List.append_assoc], .inr ⟨rfl, ?_⟩⟩
    exact ((List.prefix_append_right_inj _).mpr (List.take_prefix _ _)).trans hpart
  | all =>
    cases piece with
    | head | message => simp [logsPrint] at hact
    | newline =>
      simp only [logsPrint, Prod.mk.injEq, Sum.inr.injEq] at hact
      obtain ⟨rfl, rfl⟩ := hact
      exact ⟨call.line, List.append_assoc _ _ _, .inl ⟨rfl, rfl⟩⟩

/-! ## All threads -/

section Threads

variable {τ : Type} {file file' : Bytes} {h : List (τ × LogCall × Int)}

/-- Calls that run one behind the other leave their records one behind the other. -/
theorem records_of_serial (hserial : logsPrint.Serial file h file') :
    ∃ records : List Bytes, file' = file ++ records.flatten ∧
      List.Forall₂ (fun e => Recorded e.2.1 e.2.2) h records := by
  induction hserial with
  | nil => exact ⟨[], by simp, .nil⟩
  | snoc _ hc ih =>
    obtain ⟨records, rfl, hall⟩ := ih
    obtain ⟨record, rfl, hrecord⟩ := executes_logsPrint hc
    exact ⟨records ++ [record], by simp, List.rel_append hall (.cons hrecord .nil)⟩

variable [DecidableEq τ] {s : State τ Bytes LogCall LogPoint Int}
  {ls : List (Label τ LogCall PrintResult)}

/-- The file is the records of the calls that are done, whole where the call returned zero, in the
order they were left in, and behind them what the holder of the mutex has printed of its own. -/
theorem records_of_run (hrun : run (step logsPrint) (State.initial file) ls = some s) :
    ∃ (records : List Bytes) (rest : Bytes), s.store = file ++ records.flatten ++ rest ∧
      List.Forall₂ (fun e => Recorded e.2.1 e.2.2)
        (returns (trace (step logsPrint) shown (State.initial file) ls)) records ∧
      (s.owner = none → rest = []) ∧
      ∀ t, s.owner = some t → ∃ c, (s.phase t).call = some c ∧ rest <+: c.line := by
  obtain ⟨m, hserial, hheld⟩ := serial_of_run hrun
  obtain ⟨records, rfl, hall⟩ := records_of_serial hserial
  rcases hho : s.owner with _ | t
  · exact ⟨records, [], by rw [hheld.free hho, List.append_nil], hall, fun _ => rfl,
      fun _ ht => absurd ht (by simp)⟩
  · have hreached := hheld.taken t hho
    have hrest : ∃ c rest, (s.phase t).call = some c ∧
        s.store = file ++ records.flatten ++ rest ∧ rest <+: c.line := by
      cases hp : s.phase t with
      | outside | waiting =>
        rw [hp] at hreached
        exact hreached.elim
      | inside c p =>
        rw [hp] at hreached
        obtain ⟨rfl, hstore⟩ := steps_logsPrint hreached
        exact ⟨p.call, _, rfl, hstore, (List.prefix_append _ _).trans (printed_append_next p)⟩
      | leaving c r =>
        rw [hp] at hreached
        obtain ⟨record, hstore, hrecord⟩ := executes_logsPrint hreached
        refine ⟨c, record, rfl, hstore, ?_⟩
        rcases hrecord with ⟨-, rfl⟩ | ⟨-, hpart⟩
        · exact List.prefix_rfl
        · exact hpart
    obtain ⟨c, rest, hcall, hstore, hpart⟩ := hrest
    refine ⟨records, rest, hstore, hall, fun h => absurd h (by simp), fun u hu => ?_⟩
    obtain rfl : t = u := Option.some.inj hu
    exact ⟨c, hcall, hpart⟩

/-- **The records of the threads are never mixed.**  Whatever the order of their steps and whichever
`fprintf`s fail, the file is made of the records of the calls that are done, in the order they were
left in, and of what the holder of the mutex has printed so far.  Each call of a thread is done once
and in its turn; and as long as one is not done, it or the holder of the mutex can go on. -/
theorem logsPrint_serial (hrun : run (step logsPrint) (State.initial file) ls = some s) :
    (∃ (records : List Bytes) (rest : Bytes), s.store = file ++ records.flatten ++ rest ∧
      List.Forall₂ (fun e => Recorded e.2.1 e.2.2)
        (returns (trace (step logsPrint) shown (State.initial file) ls)) records ∧
      (s.owner = none → rest = []) ∧
      ∀ t, s.owner = some t → ∃ c, (s.phase t).call = some c ∧ rest <+: c.line) ∧
    (∀ t, callsOf t (trace (step logsPrint) shown (State.initial file) ls) =
      returnsOf t (trace (step logsPrint) shown (State.initial file) ls) ++
        (s.phase t).call.toList) ∧
    ∀ t c, (s.phase t).call = some c →
      ∃ u l, (l = .lock u ∨ (∃ w, l = .act u w) ∨ l = .unlock u) ∧
        (s.owner = none ∧ u = t ∨ s.owner = some u) ∧ (step logsPrint s l).isSome := by
  have : Nonempty PrintResult := ⟨.all⟩
  exact ⟨records_of_run hrun, calls_of_run hrun, fun _ _ => exists_step_of_run hrun⟩

/-- Two threads: the first one begins a record, the second one waits for it, and then an `fprintf`
of the second one fails in the middle of its message. -/
def twoThreads : List (Label Bool LogCall PrintResult) :=
  [.call true ⟨.info, ascii "now", ascii "one"⟩, .lock true, .act true .all,
    .call false ⟨.error, ascii "now", ascii "two"⟩, .act true .all, .act true .all, .unlock true,
    .lock false, .act false .all, .act false (.failed 1)]

theorem logsPrint_serial_twoThreads :
    ∃ s, run (step logsPrint) (State.initial []) twoThreads = some s ∧
      s.store = ascii "[now] [INFO] one\n[now] [ERRR] t" ∧
      ∃ (records : List Bytes) (rest : Bytes), s.store = [] ++ records.flatten ++ rest ∧
        List.Forall₂ (fun e => Recorded e.2.1 e.2.2)
          (returns (trace (step logsPrint) shown (State.initial []) twoThreads)) records ∧
        (s.owner = none → rest = []) ∧
        ∀ t, s.owner = some t → ∃ c, (s.phase t).call = some c ∧ rest <+: c.line :=
  ⟨_, rfl, by decide +kernel, (logsPrint_serial rfl).1⟩

/-! ## Reading the file -/

/-- A record that is one line. -/
def LogCall.OneLine (c : LogCall) : Prop := lf ∉ c.date ∧ lf ∉ c.message

theorem LogCall.OneLine.text {c : LogCall} (h : c.OneLine) : lf ∉ c.text := by
  have hname : ∀ type : LogType, lf ∉ ascii "] [" ++ getLogTypeName type ++ ascii "] " := by
    intro type
    cases type <;> decide
  intro hmem
  simp only [LogCall.text, LogCall.head, List.append_assoc, List.mem_append] at hmem
  rcases hmem with hopen | hdate | hsep | htype | hclose | hmessage
  · exact absurd hopen (by decide)
  · exact h.1 hdate
  · exact absurd hsep (by decide)
  · exact hname c.type (by simp [htype])
  · exact absurd hclose (by decide)
  · exact h.2 hmessage

end Threads

end Log
end BareHttp
