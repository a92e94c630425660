import BareHttp.Epoll.Client
import BareHttp.Foundation.PointerList
import BareHttp.Http.OpenFiles

/-!
# The loop of the epoll server

`epoll_server` in `src/server.c` from its `while` on, as a transition system.  The state
has the list `active_clients` in memory, the variables that live through all iterations
(`ev`, `cd`, `clientfd`, `bytes_read`, `ret`), the events of the batch that are left, and
what the kernel keeps: the table of descriptors of the process, and for each accepted
connection whether its socket is open here, whether another process has a copy, and its
registration.  A label carries what the kernel and the clients do.

A registration belongs to the open socket.  It goes when the last copy of the descriptor in
any process is closed, or with `EPOLL_CTL_DEL` on a descriptor that is still open; on a
closed one the call fails.  A script that `http_process_request` forks inherits the sockets
of all clients, and what it leaves running may keep copies (`kept`) and close them at any
later time (`release`).

The functions read what the statements read.  A `client_data` is read and written in memory,
at the address in `cd`; the descriptor that is used is the one in `clientfd`, the test behind
`recv` is on `bytes_read`, and the one behind the parser on `ret`.  The seven branches that tear
a client down are lists of the same three calls in different orders.

What is recorded, for the statements, is what the calls found where they were made: the
connection of a `client_data` that was read or freed, the connection whose descriptor was
closed (`history`), and the socket that was read from, the reason for a close, the request that
`http_process_request` was given, with the socket it answered on and the calls it made
(`deeds`).

The variable `active_clients` is not initialised, so it starts with any value.  The data of
an event is taken to tell the listening socket from the clients, `calloc` to succeed.
`set_non_blocking`, the messages and what is freed on the way out of the function are left
out.  A `recv` that writes outside `rq` ends the run, and so does an event for a client that
has been freed: nothing is known behind them.
-/

namespace BareHttp
namespace Epoll
namespace Loop

open PointerList

/-- What a descriptor of the process denotes. -/
inductive Object where
  | startup
  | listener
  | epoll
  | socket (k : ℕ)
  | file
  deriving DecidableEq

/-- The socket of a connection: whether this process has it open, whether another has a
copy, and the descriptor and the pointer it is registered with. -/
structure Socket where
  here : Bool
  elsewhere : Bool
  registration : Option (ℕ × ℕ)
  deriving DecidableEq

/-- A registration goes with the last copy. -/
def Socket.settle (s : Socket) : Socket :=
  if s.here || s.elsewhere then s else { s with registration := none }

/-- A `client_data` with the number of its connection. -/
structure Client where
  cd : ClientData
  conn : ℕ

/-- The data of an event. -/
inductive EventData where
  | listener
  | client (p : ℕ)
  deriving DecidableEq

/-- The variables that live through all iterations. -/
structure Vars where
  ev : ℕ
  cd : ℕ
  clientfd : ℕ
  bytesRead : Int
  ret : ParseAnswer

/-- Whether the loop goes on. -/
inductive Status where
  | running
  | returned
  | overflowed
  | dangling
  deriving DecidableEq

/-- What is recorded of the clients: that the `client_data` of a connection was read or freed,
or that the loop closed the descriptor it was given. -/
inductive Access where
  | used (k : ℕ)
  | closed (k : ℕ)
  | freed (k : ℕ)
  deriving DecidableEq

/-- What is recorded of an event: what `recv` was called on and what it returned; that the
client is closed without an answer; or the request that `http_process_request` was given and
what it answers on, and then each call it makes. -/
inductive Deed where
  | receives (on : Option Object) (r : RecvResult)
  | closes (cause : CloseCause)
  | answers (on : Option Object) (request : HttpRequest)
  | makes (e : Event)

/-- A state of the loop.  `given` says to which connection `accept` gave a number last. -/
structure State where
  clients : Memory Client
  accepted : ℕ
  table : ℕ → Option Object
  sockets : ℕ → Socket
  given : ℕ → Option ℕ
  batch : List EventData
  vars : Vars
  status : Status
  history : List Access
  deeds : List Deed

/-- What can happen next.  `wait` carries the connections `epoll_wait` reports, `none` for
the listening socket; `accept` the descriptor, the address from `calloc` and whether
`EPOLL_CTL_ADD` succeeds; `io` what `recv` returns, the results of the calls made to answer
a request, and the connections of which its script leaves copies behind. -/
inductive Label where
  | wait (evs : List (Option ℕ))
  | waitFails
  | accept (fd a : ℕ) (added : Bool)
  | acceptFails
  | io (r : RecvResult) (env : Env) (kept : List ℕ)
  | release (k : ℕ)

/-- The state in front of the loop. -/
def State.initial (active sockfd epollfd : ℕ) (base : List ℕ) (vars : Vars) : State where
  clients := ⟨active, fun _ => none⟩
  accepted := 0
  table := fun fd =>
    if fd = sockfd then some .listener
    else if fd = epollfd then some .epoll
    else if fd ∈ base then some .startup
    else none
  sockets := fun _ => ⟨false, false, none⟩
  given := fun _ => none
  batch := []
  vars := vars
  status := .running
  history := []
  deeds := []

namespace State

/-- The data of the event `epoll_wait` reports for a registered socket. -/
def eventData (s : State) : Option ℕ → Option EventData
  | none => some .listener
  | some k => (s.sockets k).registration.map fun r => .client r.2

/-- `close`. -/
def closeFd (s : State) (fd : ℕ) : State :=
  match s.table fd with
  | some (.socket k) =>
    { s with
      table := Function.update s.table fd none
      sockets := Function.update s.sockets k { s.sockets k with here := false }.settle }
  | some _ => { s with table := Function.update s.table fd none }
  | none => s

/-- `epoll_ctl` with `EPOLL_CTL_ADD` and the event in `ev`. -/
def epollAdd (s : State) (fd : ℕ) : State :=
  match s.table fd with
  | some (.socket k) =>
    { s with
      sockets :=
        Function.update s.sockets k { s.sockets k with registration := some (fd, s.vars.ev) } }
  | _ => s

/-- `epoll_ctl` with `EPOLL_CTL_DEL`. -/
def epollDel (s : State) (fd : ℕ) : State :=
  match s.table fd with
  | some (.socket k) =>
    if (s.sockets k).registration.map Prod.fst = some fd then
      { s with
        sockets := Function.update s.sockets k { s.sockets k with registration := none } }
    else s
  | _ => s

/-- `remove_client`.  Every cell was put into the list by an `add_client`, so the walk over
them takes at most as many steps. -/
def removeClient (s : State) : State :=
  match s.clients.remove s.vars.cd s.accepted .head with
  | .removed m =>
    { s with
      clients := m
      history := s.history ++ ((s.clients.data s.vars.cd).map fun c => .freed c.conn).toList }
  | .absent => s
  | .fault => { s with status := .dangling }

/-- What a script leaves running keeps copies of sockets that are open here. -/
def fork (s : State) (kept : List ℕ) : State :=
  { s with
    sockets := fun k =>
      if k ∈ kept ∧ (s.sockets k).here = true then { s.sockets k with elsewhere := true }
      else s.sockets k }

/-- A call of `http_process_request`, which was given the descriptor `fd`.  A call that opens
something returns a number that is not in use. -/
def call (fd : ℕ) (kept : List ℕ) (s : State) : Event → Option State
  | .openat2 _ (some f) =>
    if s.table f = none then some { s with table := Function.update s.table f (some .file) }
    else none
  | .pipe ends =>
    if s.table ends.1 = none ∧ s.table ends.2 = none ∧ ends.1 ≠ ends.2 then
      some { s with
        table := Function.update (Function.update s.table ends.1 (some .file)) ends.2
          (some .file) }
    else none
  | .close f => some (s.closeFd f)
  | .shutdown => some (s.closeFd fd)
  | .fork _ => some (s.fork kept)
  | _ => some s

/-- The calls of `http_process_request`, one after the other. -/
def calls (fd : ℕ) (kept : List ℕ) : State → List Event → Option State
  | s, [] => some s
  | s, e :: es =>
    ({ s with deeds := s.deeds ++ [Deed.makes e] }.call fd kept e).bind fun s =>
      s.calls fd kept es

end State

/-- A call of a branch that tears a client down. -/
inductive Action where
  | close
  | remove
  | epollDel
  deriving DecidableEq

/-- One of them. -/
def State.act (s : State) : Action → State
  | .close =>
    { s.closeFd s.vars.clientfd with
      history := s.history ++ ((s.given s.vars.clientfd).map .closed).toList }
  | .remove => s.removeClient
  | .epollDel => s.epollDel s.vars.clientfd

/-- The branches that close a client without an answer. -/
def closeActions : CloseCause → List Action
  | .byPeer => [.close, .remove, .epollDel]
  | .internalError => [.close, .epollDel, .remove]
  | .invalidRequest => [.close, .epollDel, .remove]
  | .tooLongRequest => [.close, .epollDel, .remove]
  | .tooLongBody => [.remove, .close, .epollDel]

/-- The two branches behind `http_process_request`: for a request without a body, and for
one whose body is complete. -/
def answeredActions : ClientState → List Action
  | .readingHeaders => [.remove, .epollDel, .close]
  | _ => [.close, .remove, .epollDel]

/-- The value of `bytes_read`. -/
def bytesRead : RecvResult → Int
  | .data bytes => bytes.length
  | .closed => 0
  | .wouldBlock => -1
  | .error => -1

/-- The calls `http_process_request` makes for a request. -/
def answerCalls (sc : ServerConf) (request : HttpRequest) (env : Env) : List Event :=
  (httpProcessRequest sc request ⟨env, []⟩).2.trace

/-- A script was forked. -/
def forks (es : List Event) : Bool := es.any fun e => match e with | .fork _ => true | _ => false

namespace State

/-- `*cd` is read. -/
def load (s : State) (f : State → Client → Option State) : Option State :=
  match s.clients.data s.vars.cd with
  | none => some { s with status := .dangling }
  | some c => f { s with history := s.history ++ [.used c.conn] } c

/-- `*cd` is written. -/
def store (s : State) (c : Client) : State := { s with clients := s.clients.set s.vars.cd c }

/-- `ret` is assigned. -/
def setRet (s : State) (ret : ParseAnswer) : State := { s with vars := { s.vars with ret } }

/-- No script has been run. -/
def alone (kept : List ℕ) (s : State) : Option State := if kept = [] then some s else none

/-- A client is closed without an answer. -/
def tearDown (kept : List ℕ) (s : State) (cause : CloseCause) : Option State :=
  let s := { s with deeds := s.deeds ++ [Deed.closes cause] }
  ((closeActions cause).foldl act s).alone kept

/-- `http_process_request`, and the calls behind it. -/
def answer (sc : ServerConf) (env : Env) (kept : List ℕ) (s : State) (request : HttpRequest)
    (fd : ℕ) (behind : List Action) : Option State :=
  let es := answerCalls sc request env
  let s := { s with deeds := s.deeds ++ [Deed.answers (s.table fd) request] }
  if kept = [] ∨ forks es = true then (s.calls fd kept es).map fun s => behind.foldl act s
  else none

/-- The branch `CLIENT_READING_HEADERS`. -/
def readHeaders (sc : ServerConf) (env : Env) (kept : List ℕ) (s : State) : Option State :=
  s.load fun s c =>
  let s := s.store { c with cd.lastLen := c.cd.rqSize }
  s.load fun s c =>
  let s := s.store { c with cd.rqSize := c.cd.rqSize + s.vars.bytesRead.toNat }
  s.load fun s c =>
  let parse := httpParseRequest c.cd.received c.cd.httpRq c.cd.lastLen
  let s := (s.store { c with cd.httpRq := parse.2 }).setRet parse.1
  match s.vars.ret with
  | .invalid => s.tearDown kept .invalidRequest
  | .incomplete =>
    s.load fun s c =>
    if maxBuffr ≤ c.cd.rqSize then s.tearDown kept .tooLongRequest else s.alone kept
  | .overrun => { s with status := .overflowed }.alone kept
  | .parsed _ =>
    s.load fun s c =>
    let s := s.store { c with cd.bodyLen := httpGetContentLength c.cd.httpRq }
    s.load fun s c =>
    if tooLong c.cd.bodyLen c.cd.rqSize then s.tearDown kept .tooLongBody
    else if c.cd.bodyLen = 0 then
      s.answer sc env kept c.cd.httpRq c.cd.fd (answeredActions .readingHeaders)
    else (s.store { c with cd.state := .readingBody }).alone kept

/-- The branch `CLIENT_READING_BODY`. -/
def readBody (sc : ServerConf) (env : Env) (kept : List ℕ) (s : State) : Option State :=
  s.load fun s c =>
  let s := s.store { c with cd.rqSize := c.cd.rqSize + s.vars.bytesRead.toNat }
  s.load fun s c =>
  if bodyCompleted c.cd.rqSize c.cd.bodyLen then
    let s := s.store { c with
      cd.httpRq :=
        httpAddBody c.cd.httpRq c.cd.rq c.cd.rqSize (c.cd.rqSize - c.cd.headerLen) }
    s.load fun s c => s.answer sc env kept c.cd.httpRq c.cd.fd (answeredActions .readingBody)
  else (s.store { c with cd.rqSize := c.cd.rqSize + s.vars.bytesRead.toNat }).alone kept

/-- The branches behind `recv`, which has left `errno` as `r` says. -/
def branch (sc : ServerConf) (env : Env) (kept : List ℕ) (s : State) (r : RecvResult) :
    Option State :=
  if s.vars.bytesRead = 0 then s.tearDown kept .byPeer
  else if s.vars.bytesRead < 0 then
    if r ≠ .wouldBlock then s.tearDown kept .internalError else s.alone kept
  else
    s.load fun s c =>
    match c.cd.state with
    | .readingHeaders => s.readHeaders sc env kept
    | .readingBody => s.readBody sc env kept
    | .sendingResponse => s.alone kept

/-- `tcp_recv`, which stores what it reads at `rq + rq_size`. -/
def recv (s : State) (c : Client) (r : RecvResult) : State :=
  let s : State :=
    { s with
      vars := { s.vars with bytesRead := bytesRead r }
      deeds := s.deeds ++ [Deed.receives (s.table s.vars.clientfd) r] }
  match r with
  | .data bytes =>
    if maxBuffr < c.cd.rqSize + bytes.length then { s with status := .overflowed }
    else s.store { c with cd.rq := Buffer.write c.cd.rq c.cd.rqSize bytes }
  | _ => s

/-- An event on the client at `p`. -/
def clientEvent (sc : ServerConf) (s : State) (p : ℕ) (rest : List EventData) (r : RecvResult)
    (env : Env) (kept : List ℕ) : Option State :=
  let s : State := { s with batch := rest, vars := { s.vars with cd := p } }
  s.load fun s c =>
  let s := { s with vars := { s.vars with clientfd := c.cd.fd } }
  s.load fun s c =>
  if Admissible c.cd r then
    let s := s.recv c r
    if s.status = .overflowed then s.alone kept else s.branch sc env kept r
  else none

/-- A new client: `accept` gives the number `fd`, `calloc` the address `a`. -/
def accept (s : State) (fd a : ℕ) (added : Bool) (rest : List EventData) : State :=
  let k := s.accepted
  let s : State :=
    { s with
      accepted := k + 1
      table := Function.update s.table fd (some (.socket k))
      sockets := Function.update s.sockets k ⟨true, false, none⟩
      given := Function.update s.given fd (some k)
      batch := rest
      vars := { s.vars with clientfd := fd } }
  let s := { s with vars := { s.vars with ev := s.vars.clientfd } }
  let s := { s with vars := { s.vars with cd := a } }
  let data : Client := ⟨newClient s.vars.clientfd, k⟩
  let s := { s with vars := { s.vars with ev := s.vars.cd } }
  let s := { s with clients := s.clients.push s.vars.cd data }
  if added then s.epollAdd s.vars.clientfd else { s with status := .returned }

end State

/-- One step. -/
def step (sc : ServerConf) (s : State) (l : Label) : Option State :=
  if s.status = .running then
    match l, s.batch with
    | .wait evs, [] =>
      if evs ≠ [] ∧ evs.Nodup ∧ ∀ e ∈ evs, (s.eventData e).isSome then
        some { s with batch := evs.filterMap s.eventData }
      else none
    | .waitFails, [] => some { s with status := .returned }
    | .accept fd a added, .listener :: rest =>
      if s.table fd = none ∧ a ≠ 0 ∧ s.clients.cells a = none then
        some (s.accept fd a added rest)
      else none
    | .acceptFails, .listener :: _ => some { s with status := .returned }
    | .io r env kept, .client p :: rest => s.clientEvent sc p rest r env kept
    | .release k, _ =>
      if (s.sockets k).elsewhere then
        some { s with
          sockets := Function.update s.sockets k { s.sockets k with elsewhere := false }.settle }
      else none
    | _, _ => none
  else none

end Loop
end Epoll
end BareHttp
