import BareHttp.Http.Process

/-!
# One connection of a worker

The body of the loop of `thread_function` in `src/server.c`, from `queue_pop` to
the end of the iteration.  The worker keeps `buff`, `buff_len`, `last_len` and
`request` from one connection to the next; the other variables are assigned before
they are read.  `buff` is the part `buff[0 .. buff_len)` here, so `buff_len` is its
length: nothing behind it is ever read.

What arrives on a connection is a list of pieces.  A `recv` takes from the first
piece as much as it was asked for and leaves the rest for the next one; when no
piece is left the connection ends in one of three ways.  Asking for no bytes while
some are there, which happens when `buff` is full from the start, returns `0` like a
closed connection.
-/

namespace BareHttp
namespace Worker

/-- How a connection ends when everything that arrived has been read. -/
inductive Ending where
  | closed
  | timeout
  | error
  deriving DecidableEq

/-- A connection: the pieces that arrive, its end, and the results of the system
calls made to answer it. -/
structure Connection where
  pieces : List Bytes
  nonempty : ∀ p ∈ pieces, p ≠ []
  ending : Ending
  env : Env

/-- Everything that arrives. -/
def Connection.stream (c : Connection) : Bytes := c.pieces.flatten

/-- What a worker keeps between connections. -/
structure State where
  buff : Bytes
  lastLen : ℕ
  request : HttpRequest

/-- The variables a worker starts with; `request` is whatever is on its stack. -/
def State.initial (request : HttpRequest) : State := ⟨[], 0, request⟩

/-- What came of reading a request.  `overrun` stands for a header stored behind the
array, after which nothing is known. -/
inductive Received where
  | complete (request : HttpRequest)
  | closed
  | timedOut
  | failed
  | rejected
  | overrun
  deriving DecidableEq

/-- The result of the header loop: the header block with the pieces not read yet, or
the end of the connection. -/
inductive HeaderRead where
  | block (size : ℕ) (st : State) (rest : List Bytes)
  | stop (received : Received) (st : State)

/-- The end of a connection, in the header loop. -/
def Ending.inHeaders : Ending → Received
  | .closed => .closed
  | .timeout => .timedOut
  | .error => .failed

/-- The end of a connection, in the body loop, which has no case for a timeout. -/
def Ending.inBody : Ending → Received
  | .closed => .closed
  | .timeout => .failed
  | .error => .failed

/-- The loop that reads the header block.  The next round finds room in `buff`, so the
piece before it was read whole. -/
def readHeader (ending : Ending) : State → List Bytes → HeaderRead
  | st, [] => .stop ending.inHeaders st
  | st, p :: ps =>
    let room := maxBuffr - st.buff.length
    let bytes := p.take room
    if bytes = [] then .stop .closed st
    else
      let st : State := { st with lastLen := st.buff.length, buff := st.buff ++ bytes }
      match httpParseRequest st.buff st.request st.lastLen with
      | (.invalid, rq) => .stop .rejected { st with request := rq }
      | (.incomplete, rq) =>
        if st.buff.length = maxBuffr then .stop .rejected { st with request := rq }
        else readHeader ending { st with request := rq } ps
      | (.overrun, rq) => .stop .overrun { st with request := rq }
      | (.parsed size, rq) => .block size { st with request := rq } (Buffer.leftover room p ps)

/-- The loop that reads the body; `none` says it is there.  A declared length that
passed the test before the loop ends it when `buff` is full. -/
def readBody (ending : Ending) (headerSize : ℕ) (expectedLen : Int) :
    State → List Bytes → Option Received × State
  | st, [] =>
    if (st.buff.length : Int) - headerSize < expectedLen then (some ending.inBody, st)
    else (none, st)
  | st, p :: ps =>
    if (st.buff.length : Int) - headerSize < expectedLen then
      let bytes := p.take (maxBuffr - st.buff.length)
      if bytes = [] then (some .closed, st)
      else readBody ending headerSize expectedLen { st with buff := st.buff ++ bytes } ps
    else (none, st)

/-- The part of an iteration that reads a request. -/
def receive (st : State) (pieces : List Bytes) (ending : Ending) : Received × State :=
  match readHeader ending st pieces with
  | .stop received st => (received, st)
  | .block headerSize st rest =>
    let expectedLen := httpGetContentLength st.request
    if (maxBuffr : Int) - headerSize < expectedLen then (.rejected, st)
    else
      match readBody ending headerSize expectedLen st rest with
      | (some received, st) => (received, st)
      | (none, st) =>
        let body := st.buff.drop headerSize
        (.complete { st.request with body := ⟨body.length, some body⟩ }, st)

/-- The socket calls of an iteration, with the value of `http_process_request` where
it is called. -/
def answer (sc : ServerConf) (received : Received) (w : World) : Int × World :=
  match received with
  | .complete request =>
    let (ret, w) := httpProcessRequest sc request w
    if ret < 0 then (ret, (httpSendError .internalError w).2) else (ret, w)
  | .rejected => (-1, (httpSendError .badRequest w).2)
  | .failed => (-1, (httpSendError .internalError w).2)
  | _ => (-1, w)

/-- What a connection got: the request or the rejection, and the bytes sent on it. -/
structure Result where
  received : Received
  sent : Bytes
  deriving DecidableEq

/-- One iteration.  The buffer is emptied only at its very end, behind a request that
was processed. -/
def serve (sc : ServerConf) (st : State) (c : Connection) : Result × State :=
  let (received, st) := receive st c.pieces c.ending
  let (ret, w) := answer sc received ⟨c.env, []⟩
  let result : Result := ⟨received, w.sent⟩
  match received with
  | .complete _ => if ret < 0 then (result, st) else (result, { st with buff := [], lastLen := 0 })
  | _ => (result, st)

/-- The state after a sequence of connections. -/
def serveAll (sc : ServerConf) (st : State) (cs : List Connection) : State :=
  cs.foldl (fun st c => (serve sc st c).2) st

/-- A request for the options, whole. -/
def optionsConnection : Connection where
  pieces := [ascii "OPTIONS / HTTP/1.1\r\n\r\n"]
  nonempty := by decide
  ending := .closed
  env := Env.calm ⟨12, ascii "body"⟩ (ascii "Thu, 01 Jan 1970 00:00:00 GMT")

end Worker
end BareHttp
