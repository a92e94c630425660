import Mathlib.Data.Fintype.Option
import BareHttp.Pool.Program
import BareHttp.Queue.Monitor

/-!
# The thread pool

`main` and the `n` workers of `src/server.c` around one queue and one table of
descriptors, as a transition system.  `main` accepts connections and pushes them
until `SIGINT` or a failing `accept`, then wakes the workers, scans the table of
active descriptors and joins them.  A worker pops a descriptor, registers it, reads a
request from it, performs the calls of `Pool.program` and starts again.  Every call on
a descriptor in that list, every call of `main` and every critical section is a step of
its own, in any order the threads allow.  What a worker does with a script between these
calls (`fork`, `write`, `read`, `waitpid`) is no step.

A call on a client's descriptor other than `recv` can always be made, and so can the
calls a script is left out with.  This is an assumption: `send` and `sendfile` return
though the client does not read, and a script takes its input, answers and terminates.
It matters only where somebody has to be able to go on.

Descriptor numbers are reusable.  `accept`, `openat2` and `pipe` return any number
that is not open, and the table says what a number denotes now or, once it is closed,
denoted last.  Connections are numbered as they are accepted; `queued` keeps these
numbers in step with the ring, so that a worker knows which connection it was handed
whatever happens to the descriptor.  Calls on the client's descriptor and calls of
`close` are recorded with what the number denoted when they were made.

The spawning of the workers lies before the first state: a worker that is created
late is one that is scheduled late.  The first state has numbers in use besides the
listening socket (`base`: the standard streams, the root directory, the log file).
A request whose headers overrun their array ends the run, since nothing is known
behind it.  The number of `recv` calls in an iteration is left open, and `setsockopt`,
`get_client_ip_port` and logging are left out.
-/

namespace BareHttp
namespace Pool

open Transition

/-- The threads. -/
inductive Thread (n : ℕ) where
  | main
  | worker (i : Fin n)
  deriving DecidableEq

/-- `main` and the workers. -/
def threadEquiv (n : ℕ) : Option (Fin n) ≃ Thread n where
  toFun
    | none => .main
    | some i => .worker i
  invFun
    | .main => none
    | .worker i => some i
  left_inv t := by cases t <;> rfl
  right_inv t := by cases t <;> rfl

instance (n : ℕ) : Fintype (Thread n) := Fintype.ofEquiv _ (threadEquiv n)

/-- One worker or two are enough for a run on fixed inputs, in which they are numbered.
The zero is the one that the numerals of `Fin` take. -/
instance neZero_one : @NeZero ℕ Zero.ofOfNat0 1 := ⟨Nat.one_ne_zero⟩

instance neZero_two : @NeZero ℕ Zero.ofOfNat0 2 := ⟨Nat.succ_ne_zero 1⟩

/-- What a descriptor can denote.  A file is one opened by a worker, and so is an end
of a pipe. -/
inductive Object where
  | listener
  | connection (k : ℕ)
  | file (i : ℕ)
  | other
  deriving DecidableEq

/-- An entry of the table of descriptors. -/
inductive Slot where
  | free
  | opened (o : Object)
  | closed (o : Object)
  deriving DecidableEq

/-- The number is in use. -/
def Slot.isOpen : Slot → Bool
  | .opened _ => true
  | _ => false

/-- What the number denotes, or denoted when it was last open. -/
def Slot.object : Slot → Option Object
  | .free => none
  | .opened o => some o
  | .closed o => some o

/-- `close`. -/
def Slot.close : Slot → Slot
  | .opened o => .closed o
  | slot => slot

/-- The calls that are recorded. -/
inductive Kind where
  | recv
  | send
  | sendfile
  | shutdown
  | close
  deriving DecidableEq

/-- A call with what its descriptor denoted.  `serving` is the connection the caller
was handed, if the call is on the descriptor it was handed. -/
structure Access (n : ℕ) where
  thread : Thread n
  serving : Option ℕ
  kind : Kind
  slot : Slot
  deriving DecidableEq

/-- The call closes connection `k`, or a descriptor that denoted it last. -/
def Access.closesConnection {n : ℕ} (k : ℕ) (a : Access n) : Bool :=
  a.kind = .close ∧ a.slot.object = some (.connection k)

/-- The program points of `main`.  `pushing`, `stopping` and `scanning` are inside a
function of the queue or right behind it. -/
inductive MainPc (n : ℕ) where
  | looping
  | accepting
  | pushing (k fd : ℕ)
  | stopping
  | scanning (i : Fin n)
  | shuttingDown (i : Fin n) (fd : ℕ)
  | closing (i : Fin n) (fd : ℕ)
  | joining (i : Fin n)
  | closingListener
  | done
  deriving DecidableEq

/-- The program points of a worker, with the connection it was handed and the number
it has for it.  `popping`, `registering` and `unregistering` are inside a function of
the queue or right behind it; `popped` is right behind a `queue_pop` that took a
descriptor. -/
inductive WorkerPc where
  | top
  | popping
  | popped (k : ℕ)
  | registering (k fd : ℕ)
  | reading (k fd : ℕ)
  | acting (k fd : ℕ) (cs : List SysCall)
  | unregistering (k fd : ℕ) (cs : List SysCall)
  | exited
  deriving DecidableEq

/-- A state of the server. -/
structure State (n : ℕ) where
  monitor : Monitor.State (Thread n)
  table : ℕ → Slot
  accepted : ℕ
  queued : List ℕ
  main : MainPc n
  worker : Fin n → WorkerPc
  memory : Fin n → Worker.State
  accesses : List (Access n)

/-- What can happen next.  The label of `accept` carries the number, and that of
`received` everything the client and the kernel do until the connection is closed. -/
inductive Label (n : ℕ) where
  | monitor (l : Monitor.Label (Thread n))
  | accept (fd : ℕ)
  | acceptFails
  | main
  | worker (i : Fin n)
  | recv (i : Fin n)
  | received (i : Fin n) (c : Worker.Connection)

/-- The state behind the pool loop. -/
def State.initial {n : ℕ} (queueMax sockfd : ℕ) (base : List ℕ) (requests : Fin n → HttpRequest) :
    State n where
  monitor := Monitor.State.initial queueMax
  table := fun fd =>
    if fd = sockfd then .opened .listener else if fd ∈ base then .opened .other else .free
  accepted := 0
  queued := []
  main := .looping
  worker := fun _ => .top
  memory := fun i => Worker.State.initial (requests i)
  accesses := []

variable {n : ℕ}

namespace State

/-- A thread calls a function of the queue. -/
def call (s : State n) (t : Thread n) (c : QueueCall) : Option (State n) :=
  (Monitor.step s.monitor (.call t c)).map fun m => { s with monitor := m }

/-- A call on a descriptor is recorded. -/
def access (s : State n) (t : Thread n) (serving : Option ℕ) (kind : Kind) (fd : ℕ) : State n :=
  { s with accesses := s.accesses ++ [⟨t, serving, kind, s.table fd⟩] }

/-- `close`. -/
def close (s : State n) (t : Thread n) (serving : Option ℕ) (fd : ℕ) : State n :=
  { s.access t serving .close fd with
    table := Function.update s.table fd (s.table fd).close }

/-- A number is given out. -/
def opens (s : State n) (fd : ℕ) (o : Object) : State n :=
  { s with table := Function.update s.table fd (.opened o) }

/-- A worker goes on. -/
def goto (s : State n) (i : Fin n) (pc : WorkerPc) : State n :=
  { s with worker := Function.update s.worker i pc }

/-- How often a descriptor was closed that denoted connection `k`, or denoted it last. -/
def closes (s : State n) (k : ℕ) : ℕ := s.accesses.countP (Access.closesConnection k)

/-- A critical section that stores a descriptor moves the connection of `main` to the
ring, and one that takes a descriptor moves the first connection to the worker. -/
def transfer (s : State n) (l : Monitor.Label (Thread n)) (m : Monitor.State (Thread n)) :
    State n :=
  match l, s.main, s.queued with
  | .critical .main _, .pushing k _, ks =>
    if s.monitor.queue.size < m.queue.size then { s with monitor := m, queued := ks ++ [k] }
    else { s with monitor := m }
  | .critical (.worker i) _, _, k :: ks =>
    if m.queue.size < s.monitor.queue.size then
      { s.goto i (.popped k) with monitor := m, queued := ks }
    else { s with monitor := m }
  | _, _, _ => { s with monitor := m }

/-- The head of the loop that wakes and joins the workers. -/
def scan (s : State n) (i : ℕ) : Option (State n) :=
  if h : i < n then { s with main := .scanning ⟨i, h⟩ }.call .main (.getActiveFd i)
  else some { s with main := .closingListener }

/-- The next step of `main`, where it does not wait for a client. -/
def stepMain (sockfd : ℕ) (s : State n) : Option (State n) :=
  match s.main, s.monitor.phase .main with
  | .looping, _ =>
    if s.monitor.sigint then { s with main := .stopping }.call .main .shutdown
    else some { s with main := .accepting }
  | .pushing _ _, .ready _ => some { s with main := .looping }
  | .stopping, .ready _ => s.scan 0
  | .scanning i, .ready (some fd) =>
    if fd = 0 then some { s with main := .joining i }
    else some { s with main := .shuttingDown i fd }
  | .shuttingDown i fd, _ =>
    some { s.access .main none .shutdown fd with main := .closing i fd }
  | .closing i fd, _ => some { s.close .main none fd with main := .joining i }
  | .joining i, _ => if s.worker i = .exited then s.scan (i + 1) else none
  | .closingListener, _ =>
    some { (s.access .main none .shutdown sockfd).close .main none sockfd with main := .done }
  | _, _ => none

/-- A worker performs a system call and goes on with the others. -/
def perform (s : State n) (i : Fin n) (k fd : ℕ) (cs : List SysCall) :
    SysCall → Option (State n)
  | .openFile f =>
    if (s.table f).isOpen then none else some ((s.opens f (.file i)).goto i (.acting k fd cs))
  | .closeFile f => some ((s.close (.worker i) none f).goto i (.acting k fd cs))
  | .send => some ((s.access (.worker i) (some k) .send fd).goto i (.acting k fd cs))
  | .sendfile => some ((s.access (.worker i) (some k) .sendfile fd).goto i (.acting k fd cs))
  | .epipe => some ((s.access (.worker i) (some k) .shutdown fd).goto i (.acting k fd cs))
  | .shutdown => some ((s.access (.worker i) (some k) .shutdown fd).goto i (.acting k fd cs))
  | .close => some ((s.close (.worker i) (some k) fd).goto i (.acting k fd cs))
  | .unregister => (s.goto i (.unregistering k fd cs)).call (.worker i) (.delActiveFd i)

/-- The next step of a worker, where it does not wait for its client.  `queue_pop`
returns `-1` only with `sigint` set, so that value is never used as a descriptor. -/
def stepWorker (s : State n) (i : Fin n) : Option (State n) :=
  match s.worker i, s.monitor.phase (.worker i) with
  | .top, _ =>
    if s.monitor.sigint then some (s.goto i .exited)
    else (s.goto i .popping).call (.worker i) .pop
  | .popping, .ready none => if s.monitor.sigint then some (s.goto i .exited) else none
  | .popped k, .ready (some fd) =>
    if s.monitor.sigint then some (s.goto i .exited)
    else (s.goto i (.registering k fd)).call (.worker i) (.addActiveFd fd i)
  | .registering k fd, .ready _ => some (s.goto i (.reading k fd))
  | .acting k fd (c :: cs), _ => s.perform i k fd cs c
  | .acting _ _ [], _ => some (s.goto i .top)
  | .unregistering k fd cs, .ready _ => some (s.goto i (.acting k fd cs))
  | _, _ => none

end State

/-- One step. -/
def step (sc : ServerConf) (sockfd : ℕ) (s : State n) : Label n → Option (State n)
  | .monitor (.call _ _) => none
  | .monitor l => (Monitor.step s.monitor l).map (s.transfer l)
  | .accept fd =>
    if s.main = .accepting ∧ (s.table fd).isOpen = false then
      { s.opens fd (.connection s.accepted) with
        accepted := s.accepted + 1
        main := .pushing s.accepted fd }.call .main (.push fd)
    else none
  | .acceptFails =>
    if s.main = .accepting then { s with main := .stopping }.call .main .shutdown else none
  | .main => s.stepMain sockfd
  | .worker i => s.stepWorker i
  | .recv i =>
    match s.worker i with
    | .reading k fd =>
      some ((s.access (.worker i) (some k) .recv fd).goto i (.reading k fd))
    | _ => none
  | .received i c =>
    match s.worker i with
    | .reading k fd =>
      if (Worker.receive (s.memory i) c.pieces c.ending).1 = .overrun then none
      else
        some { s.goto i (.acting k fd (program sc (s.memory i) c)) with
          memory := Function.update s.memory i (Worker.serve sc (s.memory i) c).2 }
    | _ => none

end Pool
end BareHttp
