import BareHttp.Epoll.Exit

/-!
# Starting the server

`main` in `src/server.c` up to the loop of `epoll_server`: `initialize_server_conf`,
`logs_init_file`, `tcp_start_connection`, `set_non_blocking`, `initialize_events` and the calls for
`epoll`.  Any of the calls may fail; what they answer is an `Answers`.  The process is its table of
descriptors and the blocks of memory it has allocated and not freed.

`epoll_server` does not look at what `tcp_start_connection` returns.  It is `set_non_blocking` that
finds out: a socket that could not be opened has the number `-1`, and one that could not be bound
has been closed, so that `fcntl` fails on both.

A kernel that gives a descriptor gives one that is free; an answer that names another one is taken
for a failure.
-/

namespace BareHttp
namespace Epoll
namespace Start

open Pico

/-- What has been done to a socket. -/
structure Stream where
  bound : Bool
  listening : Bool
  nonBlocking : Bool
  registered : Bool
  deriving DecidableEq

/-- What a descriptor denotes. -/
inductive Desc where
  | standard
  | root
  | log
  | stream (s : Stream)
  | epoll
  deriving DecidableEq

/-- The blocks of memory: those of `libconfuse` as one, `server_conf` and its strings, `log_file`
and the array of events. -/
inductive Block where
  | cfg
  | conf
  | serverRoot
  | serverSignature
  | logFile
  | log
  | events
  deriving DecidableEq

/-- The process.  `misused` records that a block was freed or a descriptor closed that was not
there, `overflowed` that a text was longer than its array. -/
structure Process where
  table : ℕ → Option Desc
  heap : Block → Bool
  misused : Bool
  overflowed : Bool

/-- What the calls answer, with the configured name and the date that go into the name of the log
file.  `stat` tells whether `logs` is a directory. -/
structure Answers where
  cfgParse : Bool
  mallocConf : Bool
  strdupRoot : Bool
  strdupSignature : Bool
  strdupLogFile : Bool
  openRoot : Option ℕ
  mallocLog : Bool
  stat : Option Bool
  mkdir : Bool
  logName : Bytes
  date : Bytes
  fopen : Option ℕ
  mutexInit : Bool
  socket : Option ℕ
  setsockopt : Bool
  bind : Bool
  listen : Bool
  getFl : Bool
  setFl : Bool
  callocEvents : Bool
  epollCreate : Option ℕ
  epollCtl : Bool

namespace Process

/-- The process in front of `main`, with the descriptors it was given. -/
def start (std : List ℕ) : Process where
  table := fun fd => if fd ∈ std then some .standard else none
  heap := fun _ => false
  misused := false
  overflowed := false

/-- An allocation that succeeds or not. -/
def alloc (p : Process) (b : Block) (ok : Bool) : Bool × Process :=
  if ok then (true, { p with heap := Function.update p.heap b true }) else (false, p)

/-- `free`, for a pointer that is not null. -/
def free (p : Process) (b : Block) : Process :=
  if p.heap b then { p with heap := Function.update p.heap b false } else { p with misused := true }

/-- A call that opens a descriptor. -/
def openFd (p : Process) (d : Desc) (answer : Option ℕ) : Option ℕ × Process :=
  match answer with
  | some fd =>
    if p.table fd = none then (some fd, { p with table := Function.update p.table fd (some d) })
    else (none, p)
  | none => (none, p)

/-- `close`. -/
def closeFd (p : Process) (fd : ℕ) : Process :=
  if p.table fd = none then { p with misused := true }
  else { p with table := Function.update p.table fd none }

/-- Something is done to a socket. -/
def setStream (p : Process) (fd : ℕ) (f : Stream → Stream) : Process :=
  match p.table fd with
  | some (.stream s) => { p with table := Function.update p.table fd (some (.stream (f s))) }
  | _ => p

end Process

/-- The fields of `server_conf` that are pointers: which of them are not null, and the name of the
log. -/
structure Conf where
  serverRoot : Bool
  serverSignature : Bool
  logFile : Option Bytes
  deriving DecidableEq

/-- `initialize_server_conf`.  A root that cannot be opened leaves everything allocated. -/
def initializeServerConf (a : Answers) (p : Process) : Option Conf × Process :=
  let (_, p) := p.alloc .cfg true
  if a.cfgParse then
    let (sc, p) := p.alloc .conf a.mallocConf
    if sc then
      let (serverRoot, p) := p.alloc .serverRoot a.strdupRoot
      let (serverSignature, p) := p.alloc .serverSignature a.strdupSignature
      let (logFile, p) := p.alloc .logFile a.strdupLogFile
      let p := p.free .cfg
      -- `open` fails on a null pointer
      let (rootFd, p) := p.openFd .root (if serverRoot then a.openRoot else none)
      match rootFd with
      | none => (none, p)
      | some _ => (some ⟨serverRoot, serverSignature, if logFile then some a.logName else none⟩, p)
    else (none, p)
  else (none, p.free .cfg)

/-- `free_server_conf`, which does not close the root directory. -/
def freeServerConf (sc : Conf) (p : Process) : Process :=
  let p := if sc.serverSignature then p.free .serverSignature else p
  let p := if sc.serverRoot then p.free .serverRoot else p
  let p := if sc.logFile.isSome then p.free .logFile else p
  p.free .conf

/-- The name of the log file. -/
def completeLogName (logName date : Bytes) : Bytes :=
  ascii "logs/" ++ logName ++ ascii "_" ++ date ++ ascii ".log"

/-- `logs_init_file`, with the descriptor of the file it opens.  The name goes into an array of 256
bytes. -/
def logsInitFile (logName : Option Bytes) (a : Answers) (p : Process) : Option ℕ × Process :=
  let (lf, p) := p.alloc .log a.mallocLog
  if lf then
    match logName with
    | none => (none, p)
    | some logName =>
      let directory := match a.stat with
        | none => a.mkdir
        | some isDir => isDir
      if directory then
        let p := { p with overflowed := decide (256 ≤ (completeLogName logName a.date).length) }
        let (file, p) := p.openFd .log a.fopen
        match file with
        | none => (none, p)
        | some fd => if a.mutexInit then (some fd, p) else (none, p.closeFd fd)
      else (none, p)
  else (none, p)

/-- `logs_destroy`. -/
def logsDestroy (logfd : ℕ) (p : Process) : Process := (p.closeFd logfd).free .log

/-- `tcp_start_connection`: what it returns and what it leaves in `sockfd`, `none` for `-1`. -/
def tcpStartConnection (a : Answers) (p : Process) : Int × Option ℕ × Process :=
  let (sockfd, p) := p.openFd (.stream ⟨false, false, false, false⟩) a.socket
  match sockfd with
  | none => (-1, none, p)
  | some fd =>
    if a.setsockopt then
      if a.bind then
        let p := p.setStream fd fun s => { s with bound := true }
        if a.listen then (0, some fd, p.setStream fd fun s => { s with listening := true })
        else (-1, some fd, p.closeFd fd)
      else (-1, some fd, p.closeFd fd)
    else (-1, some fd, p.closeFd fd)

/-- `set_non_blocking`.  On a descriptor that is not open the first `fcntl` fails. -/
def setNonBlocking (a : Answers) (fd : Option ℕ) (p : Process) : Int × Process :=
  match fd with
  | none => (-1, p)
  | some fd =>
    if p.table fd = none then (-1, p)
    else if a.getFl then
      if a.setFl then (0, p.setStream fd fun s => { s with nonBlocking := true }) else (-1, p)
    else (-1, p)

/-- `initialize_events`. -/
def initializeEvents (a : Answers) (p : Process) : Int × Process :=
  let (ok, p) := p.alloc .events a.callocEvents
  if ok then (0, p) else (-1, p)

/-- How the start ends. -/
inductive Result where
  | returns (ret : Int)
  | loop (sockfd : Option ℕ) (epollfd logfd : ℕ)
  deriving DecidableEq

/-- `epoll_server` up to its loop. -/
def epollServer (a : Answers) (sc : Conf) (logfd : ℕ) (p : Process) : Result × Process :=
  let (_, sockfd, p) := tcpStartConnection a p
  let (ret, p) := setNonBlocking a sockfd p
  if ret ≠ 0 then (.returns (-1), freeServerConf sc (logsDestroy logfd p))
  else
    let (ret, p) := initializeEvents a p
    if ret ≠ 0 then (.returns (-1), freeServerConf sc (logsDestroy logfd p))
    else
      let (epollfd, p) := p.openFd .epoll a.epollCreate
      match epollfd with
      | none => (.returns (-1), freeServerConf sc (logsDestroy logfd (p.free .events)))
      | some epollfd =>
        if a.epollCtl then
          (.loop sockfd epollfd logfd,
            match sockfd with
            | some fd => p.setStream fd fun s => { s with registered := true }
            | none => p)
        else
          (.returns (-1),
            freeServerConf sc (logsDestroy logfd ((p.closeFd epollfd).free .events)))

/-- `main` up to the loop. -/
def main (a : Answers) (p : Process) : Result × Process :=
  let (sc, p) := initializeServerConf a p
  match sc with
  | none => (.returns (-1), p)
  | some sc =>
    let (lf, p) := logsInitFile sc.logFile a p
    match lf with
    | none => (.returns (-1), freeServerConf sc p)
    | some logfd => epollServer a sc logfd p

/-! ## Memory and descriptors -/

/-- What is allocated while the server runs. -/
def heapOf (sc : Conf) (log events : Bool) : Block → Bool
  | .cfg => false
  | .conf => true
  | .serverRoot => sc.serverRoot
  | .serverSignature => sc.serverSignature
  | .logFile => sc.logFile.isSome
  | .log => log
  | .events => events

section Calls

variable {t : ℕ → Option Desc} {sc : Conf} {log events overflowed : Bool} {fd : ℕ} {d : Desc}

end Calls

/-! ## The stages -/

section Stages

variable {a : Answers} {t : ℕ → Option Desc} {sc : Conf} {overflowed : Bool} {logfd : ℕ}

/-- The configuration that is read. -/
def Answers.conf (a : Answers) : Conf :=
  ⟨true, a.strdupSignature, if a.strdupLogFile then some a.logName else none⟩

/-- The calls that lead from `tcp_start_connection` to the loop succeed. -/
structure Answers.Listens (a : Answers) (s e : ℕ) : Prop where
  socket : a.socket = some s
  bound : a.setsockopt = true ∧ a.bind = true ∧ a.listen = true
  flags : a.getFl = true ∧ a.setFl = true
  events : a.callocEvents = true
  epollCreate : a.epollCreate = some e
  epollCtl : a.epollCtl = true

end Stages

/-! ## The start as a whole -/

/-- What the loop knows of a descriptor. -/
def Desc.object : Desc → Loop.Object
  | .stream _ => .listener
  | .epoll => .epoll
  | _ => .startup

/-- The process in front of the loop. -/
structure Ready (a : Answers) (std : List ℕ) (r l s e : ℕ) (p : Process) : Prop where
  /-- The table is the one the loop starts from. -/
  table : ∀ active vars fd, (p.table fd).map Desc.object =
    (Loop.State.initial active s e (r :: l :: std) vars).table fd
  listener : p.table s = some (.stream ⟨true, true, true, true⟩)
  log : p.table l = some .log
  heap : p.heap = heapOf a.conf true true
  misused : p.misused = false
  overflowed : p.overflowed = decide (256 ≤ (completeLogName a.logName a.date).length)

section Logged

variable {a : Answers} {std : List ℕ} {r l s e fd : ℕ} {overflowed : Bool}

end Logged

end Start
end Epoll
end BareHttp
