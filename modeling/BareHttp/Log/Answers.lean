import BareHttp.Http.Framing
import BareHttp.Http.PathString
import BareHttp.Log.Print

/-!
# What a request leaves in the log

`http_process_request` and the functions behind it again, now with their calls of `logs_print` and
`get_client_ip_port`.  What they answer is not changed by that (`httpProcessRequest_log`).

A message is kept as the call it is from, with the texts that go into it.  `get_client_ip_port`
fills an array of the caller, and leaves it as it is where `getpeername` fails; what is in it then
is part of what the calls answer.
-/

namespace BareHttp
namespace Log

open Pico

/-- The address and the port of a client, as `getpeername` gives them. -/
structure Peer where
  a : UInt8
  b : UInt8
  c : UInt8
  d : UInt8
  port : UInt16
  deriving DecidableEq

/-- `inet_ntop` for `AF_INET`. -/
def inetNtop (p : Peer) : Bytes :=
  printInt p.a.toNat ++ ascii "." ++ printInt p.b.toNat ++ ascii "." ++ printInt p.c.toNat ++
    ascii "." ++ printInt p.d.toNat

/-- The text `get_client_ip_port` prints. -/
def Peer.text (p : Peer) : Bytes := inetNtop p ++ ascii ":" ++ printInt p.port.toNat

/-- The calls of `logs_print` in `srclib/http.c`, and the one in `get_client_ip_port`.  `number` is
what `%d` makes of the pointer `request->method`. -/
inductive Message where
  | peerUnknown
  | received (method : HttpMethod) (url ip : Bytes)
  | notSupported (number : Int) (ip : Bytes)
  | tooLong
  | responseSent (ip : Bytes)
  | notAllowed (ip : Bytes)
  | scriptMissing (ip : Bytes)
  | scriptRefused (ip : Bytes)
  | executing (method : HttpMethod) (ip : Bytes)
  | answered (method : HttpMethod) (ip : Bytes)
  | fileMissing (path ip : Bytes)
  | fileRefused (path ip : Bytes)
  | dateFails (ip : Bytes)
  | lastModFails (ip : Bytes)
  | headerFails (ip : Bytes)
  | fileSent (path ip : Bytes)
  deriving DecidableEq

/-- The method, as it stands in the format strings. -/
def methodName : HttpMethod → Bytes
  | .get => ascii "GET"
  | .post => ascii "POST"
  | .options => ascii "OPTIONS"
  | .unknown => []

namespace Message

/-- The first argument of `logs_print`. -/
def type : Message → LogType
  | .peerUnknown | .notSupported _ _ | .tooLong | .dateFails _ | .lastModFails _
  | .headerFails _ => .error
  | .notAllowed _ | .scriptMissing _ | .scriptRefused _ | .fileMissing _ _
  | .fileRefused _ _ => .warning
  | .received _ _ _ | .responseSent _ | .executing _ _ | .answered _ _ | .fileSent _ _ => .info

/-- What `vfprintf` prints. -/
def text : Message → Bytes
  | .peerUnknown => ascii "Error obteniendo la ip y el puerto del cliente"
  | .received method url ip =>
    ascii "Received " ++ methodName method ++ ascii " petition " ++ url ++ ascii " - client: " ++ ip
  | .notSupported number ip =>
    ascii "Not supported method " ++ printInt number ++ ascii " - client: " ++ ip
  | .tooLong => ascii "Response too long to fit in " ++ printInt maxBuffr
  | .responseSent ip => ascii "Response sent - client: " ++ ip
  | .notAllowed ip => ascii "Trying to access not allowed direction - client: " ++ ip
  | .scriptMissing ip => ascii "Requested script not exists - client: " ++ ip
  | .scriptRefused ip => ascii "Requested script not allowed - client: " ++ ip
  | .executing method ip =>
    ascii "Executing " ++ methodName method ++ ascii " script - client: " ++ ip
  | .answered method ip => methodName method ++ ascii " response sent - client: " ++ ip
  | .fileMissing path ip => ascii "File " ++ path ++ ascii " not found - client: " ++ ip
  | .fileRefused path ip => ascii "File " ++ path ++ ascii " not allowed - client: " ++ ip
  | .dateFails ip => ascii "Error formatting actual date - client: " ++ ip
  | .lastModFails ip => ascii "Error formatting last modified date - client: " ++ ip
  | .headerFails ip => ascii "Error sending HTTP response header - client: " ++ ip
  | .fileSent path ip =>
    ascii "Response HTTP, with file " ++ path ++ ascii ", sent - client: " ++ ip

/-- The call of `logs_print`, with the date it finds. -/
def call (m : Message) (date : Bytes) : LogCall := ⟨m.type, date, m.text⟩

end Message

/-- The results of `getpeername` to come, with what the caller's array holds where it fails, and
the messages so far. -/
structure Journal where
  peers : ℕ → Except Bytes Peer
  messages : List Message

/-- `logs_print`. -/
def Journal.print (j : Journal) (m : Message) : Journal := { j with messages := j.messages ++ [m] }

/-- What is in the caller's array behind `get_client_ip_port`. -/
def clientText : Except Bytes Peer → Bytes
  | .ok peer => peer.text
  | .error stale => stale

/-- `get_client_ip_port`. -/
def getClientIpPort (j : Journal) : Bytes × Journal :=
  let j' := { j with peers := tail j.peers }
  match j.peers 0 with
  | .ok peer => (peer.text, j')
  | .error stale => (stale, j'.print .peerUnknown)

/-- What `%s` and `%.*s` print of a byte string: the bytes in front of a terminator. -/
def cString (s : Bytes) : Bytes := s.takeWhile (· ≠ 0)

/-- `process_options`. -/
def processOptions (w : World) (j : Journal) : (Int × World) × Journal :=
  let response : HttpResponse := ⟨.noContent, []⟩
  let response := addHeader response (ascii "Allow") (ascii "GET, POST, OPTIONS")
  let response := addHeader response (ascii "Content-Length") (ascii "0")
  match serializeResponse response maxBuffr with
  | none => ((0, (httpSendError .internalError w).2), j.print .tooLong)
  | some buffer =>
    let (ret, w) := tcpSend buffer w
    let (ip, j) := getClientIpPort j
    if ret < 0 then ((-1, w), j) else ((0, w), j.print (.responseSent ip))

/-- `process_script`, from the collected output on. -/
def sendScriptOutput (sc : ServerConf) (out : Bytes) (w : World) (j : Journal) :
    (Int × World) × Journal :=
  let (date, w) := strftime w
  match date with
  | none => ((-1, (httpSendError .internalError w).2), j)
  | some date =>
    match serializeResponse (scriptResponse sc date out.length) maxBuffr with
    | none => ((0, (httpSendError .internalError w).2), j.print .tooLong)
    | some buffer =>
      let (ret, w) := tcpSend buffer w
      if ret < 0 then ((-1, w), j)
      else
        let (ret, w) := tcpSend out w
        if ret < 0 then ((-1, w), j) else ((0, w), j)

/-- `process_script`, from the second `open_safe` on. -/
def runScript (sc : ServerConf) (args : Body) (path : Bytes) (w : World) (j : Journal) :
    (Int × World) × Journal :=
  let (_, w) := openSafe path w
  let (inpipe, w) := pipe w
  match inpipe with
  | none => ((-1, w), j)
  | some inpipe =>
    let (outpipe, w) := pipe w
    match outpipe with
    | none => ((-1, (w.close inpipe.1).close inpipe.2), j)
    | some outpipe =>
      let (pid, w) := fork w
      match pid with
      | none => ((-1, (((w.close inpipe.1).close inpipe.2).close outpipe.1).close outpipe.2), j)
      | some pid =>
        let w := (w.close inpipe.1).close outpipe.2
        let w := writeArgs inpipe.2 args.bytes args.size.toNat args.size.toNat w
        let w := w.close inpipe.2
        let (out, w) := readOutput outpipe.1 (maxBuffr + 1) [] w
        let w := (w.close outpipe.1).log (.waitpid pid)
        match out with
        | none => ((-1, w), j)
        | some out => sendScriptOutput sc out w j

/-- `process_script`. -/
def processScript (sc : ServerConf) (args : Body) (path : Bytes) (w : World) (j : Journal) :
    (Int × World) × Journal :=
  let (ip, j) := getClientIpPort j
  let (ret, w) := getFileExists path w
  if ret = -2 then ((-2, (httpSendError .notFound w).2), j.print (.scriptMissing ip))
  else if ret = -3 then ((-2, (httpSendError .notAllowed w).2), j.print (.scriptRefused ip))
  else if ret = -1 then ((-1, w), j)
  else runScript sc args path w j

/-- `process_post`. -/
def processPost (sc : ServerConf) (request : HttpRequest) (w : World) (j : Journal) :
    (Int × World) × Journal :=
  let (ip, j) := getClientIpPort j
  if checkPathTraversal request.url then
    ((0, (httpSendError .forbidden w).2), j.print (.notAllowed ip))
  else
    match buildPath (urlPath request.url) with
    | none => ((0, (httpSendError .badRequest w).2), j)
    | some path =>
      if isScript path then
        let ((ret, w), j) := processScript sc request.body path w j
        if ret = -1 then ((-1, w), j)
        else if ret = -2 then ((0, w), j)
        else ((0, w), (j.print (.executing .post ip)).print (.answered .post ip))
      else ((0, w), j.print (.answered .post ip))

/-- `process_get` for a path that is not a script. -/
def serveFile (sc : ServerConf) (path ip : Bytes) (w : World) (j : Journal) :
    (Int × World) × Journal :=
  let (ret, info, w) := getFileInfo path w
  if ret = -2 then ((0, (httpSendError .notFound w).2), j.print (.fileMissing (cString path) ip))
  else if ret = -3 then
    ((0, (httpSendError .forbidden w).2), j.print (.fileRefused (cString path) ip))
  else
    match info with
    | none => ((-1, w), j)
    | some (fileSize, _) =>
      let (date, w) := strftime w
      match date with
      | none => ((0, (httpSendError .internalError w).2), j.print (.dateFails ip))
      | some date =>
        let (lastMod, w) := strftime w
        match lastMod with
        | none => ((0, (httpSendError .internalError w).2), j.print (.lastModFails ip))
        | some lastMod =>
          let response := fileResponse sc date lastMod fileSize (getMimeType path)
          match serializeResponse response maxBuffr with
          | none => ((0, (httpSendError .internalError w).2), j.print .tooLong)
          | some buffer =>
            let (ret, w) := tcpSend buffer w
            if ret < 0 then ((0, (httpSendError .internalError w).2), j.print (.headerFails ip))
            else
              let (ret, w) := sendFile path w
              if ret < 0 then ((-1, w), j)
              else ((0, w), j.print (.fileSent (cString path) ip))

/-- `process_get`. -/
def processGet (sc : ServerConf) (request : HttpRequest) (w : World) (j : Journal) :
    (Int × World) × Journal :=
  let (ip, j) := getClientIpPort j
  if checkPathTraversal request.url then
    ((0, (httpSendError .forbidden w).2), j.print (.notAllowed ip))
  else
    match buildPath (urlPath request.url) with
    | none => ((0, (httpSendError .badRequest w).2), j)
    | some path =>
      if isScript path then
        let query := urlQuery request.url
        let ((ret, w), j) := processScript sc ⟨query.length, some query⟩ path w j
        if ret = -2 then ((0, w), j)
        else if ret = 0 then
          ((ret, w), (j.print (.executing .get ip)).print (.answered .get ip))
        else ((ret, w), j)
      else serveFile sc path ip w j

/-- `http_process_request`. -/
def httpProcessRequest (sc : ServerConf) (number : Int) (request : HttpRequest) (w : World)
    (j : Journal) : (Int × World) × Journal :=
  let (ip, j) := getClientIpPort j
  let method := requestMethodType request.method
  match method with
  | .get => processGet sc request w (j.print (.received method (cString request.url) ip))
  | .post => processPost sc request w (j.print (.received method (cString request.url) ip))
  | .options => processOptions w (j.print (.received method (cString request.url) ip))
  | .unknown => (httpSendError .notAllowed w, j.print (.notSupported number ip))

end Log
end BareHttp
