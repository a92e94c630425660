import BareHttp.Http.Response

/-!
# Answering a request

`http_process_request` and the private functions of `srclib/http.c` behind it, as
functions from a world to a return value and a world.  Every early return of the
source is a branch here, with the descriptors it closes and those it does not.

The child of `fork` is not modelled: what it does is visible to the server as the
results of `read` on its output, which are part of the `Env`.
-/

namespace BareHttp

/-- `MAX_PATH`. -/
def maxPath : ℕ := 132

/-- `http_method_t`. -/
inductive HttpMethod where
  | unknown
  | get
  | post
  | options
  deriving DecidableEq

/-- `request_method_type`. -/
def requestMethodType (method : Bytes) : HttpMethod :=
  if method = ascii "GET" then .get
  else if method = ascii "POST" then .post
  else if method = ascii "OPTIONS" then .options
  else .unknown

/-- The fields of `server_conf` a response depends on. -/
structure ServerConf where
  serverSignature : Bytes
  deriving DecidableEq

/-- `check_path_traversal`: a backslash, two dots or two slashes, tested at every
position but the last. -/
def checkPathTraversal : Bytes → Bool
  | a :: b :: url =>
    if a = 92 then true
    else if a = 46 ∧ b = 46 then true
    else if a = 47 ∧ b = 47 then true
    else checkPathTraversal (b :: url)
  | _ => false

/-- The URL before the first `?`.  The loop sets `url_size` to the position of a `?`,
which ends it. -/
def urlPath (url : Bytes) : Bytes := url.takeWhile (· ≠ 63)

/-- The bytes behind the first `?`; without one, `script_args` is `NULL` and
`args_len` is zero. -/
def urlQuery (url : Bytes) : Bytes := (url.dropWhile (· ≠ 63)).drop 1

/-- `build_path` on a URL without its query; `none` is the return value `-2`. -/
def buildPath (url : Bytes) : Option Bytes :=
  if maxPath - 1 < url.length then none
  else if url = [47] then some (ascii "/index.html")
  else some url

/-- `strrchr(path, '.')`, without the dot. -/
def extension (path : Bytes) : Option Bytes :=
  if 46 ∈ path then some (path.reverse.takeWhile (· ≠ 46)).reverse else none

/-- `get_mime_type`. -/
def getMimeType (path : Bytes) : Bytes :=
  match extension path with
  | none => ascii "text/plain"
  | some ext =>
    if ext = ascii "txt" then ascii "text/plain"
    else if ext = ascii "html" then ascii "text/html"
    else if ext = ascii "gif" then ascii "image/gif"
    else if ext = ascii "jpg" ∨ ext = ascii "jpeg" then ascii "image/jpeg"
    else if ext = ascii "mpeg" ∨ ext = ascii "mpg" then ascii "video/mpeg"
    else if ext = ascii "doc" ∨ ext = ascii "docx" then ascii "application/msword"
    else if ext = ascii "pdf" then ascii "application/pdf"
    else if ext = ascii "py" then ascii "text/x-python"
    else if ext = ascii "php" then ascii "text/x-php"
    else if ext = ascii "css" then ascii "text/css"
    else ascii "text/plain"

/-- The test both handlers make on the MIME type. -/
def isScript (path : Bytes) : Bool :=
  getMimeType path = ascii "text/x-python" || getMimeType path = ascii "text/x-php"

/-- `open_safe`: the path without its first byte.  An empty path has none, and the string
passed then begins behind its terminator. -/
def openSafe (path : Bytes) (w : World) : Except Errno Opened × World :=
  let w' := { w with env := { w.env with openat2 := tail w.env.openat2 } }
  match w.env.openat2 0 with
  | .ok f => (.ok f, w'.log (.openat2 path.tail? (some f.fd)))
  | .error e => (.error e, w'.log (.openat2 path.tail? none))

/-- `fstat`. -/
def fstat (w : World) : Option Stat × World :=
  (w.env.fstat 0, { w with env := { w.env with fstat := tail w.env.fstat } })

/-- The return value of `get_file_info` for a failed open. -/
def openErrorCode : Errno → Int
  | .eacces => -3
  | .eloop => -3
  | .enoent => -2
  | _ => -1

/-- `get_file_info` with two null pointers: only whether the file opens. -/
def getFileExists (path : Bytes) (w : World) : Int × World :=
  let (r, w) := openSafe path w
  match r with
  | .error e => (openErrorCode e, w)
  | .ok f => (0, w.close f.fd)

/-- `get_file_info` with two results.  The size goes through an `int`. -/
def getFileInfo (path : Bytes) (w : World) : Int × Option (Int × Int) × World :=
  let (r, w) := openSafe path w
  match r with
  | .error e => (openErrorCode e, none, w)
  | .ok f =>
    let (st, w) := fstat w
    match st with
    | none => (-1, none, w.close f.fd)
    | some st => (0, some (CInt.toInt32 st.stSize, st.stMtime), w.close f.fd)

/-- The most `sendfile` moves in one call. -/
def sendfileMax : ℕ := 2147479552

/-- The bytes a `sendfile` with this result moves from `offset` on, at most `len`. -/
def SendfileResult.moved (content : Bytes) (offset len : ℕ) : SendfileResult → Bytes
  | .some n => (content.drop offset).take (min (n + 1) (min len sendfileMax))
  | .fail _ => []

/-- The loop of `send_file`, with the offset it ends at.  Each round that does not
end the loop moves at least one byte, so `fuel` is the number of bytes left. -/
def sendFileLoop (content : Bytes) (size : ℕ) : ℕ → ℕ → World → ℕ × World
  | 0, offset, w => (offset, w)
  | fuel + 1, offset, w =>
    if offset < size then
      let moved := (w.env.sendfile 0).moved content offset (size - offset)
      let w := { w with env := { w.env with sendfile := tail w.env.sendfile } }
      if moved = [] then (offset, w)
      else sendFileLoop content size fuel (offset + moved.length) (w.log (.sendfile moved))
    else (offset, w)

/-- `send_file`.  The descriptor stays open when the file was not sent whole. -/
def sendFile (path : Bytes) (w : World) : Int × World :=
  let (r, w) := openSafe path w
  match r with
  | .error _ => (-1, w)
  | .ok f =>
    let (st, w) := fstat w
    match st with
    | none => (-1, w.close f.fd)
    | some st =>
      let (offset, w) := sendFileLoop f.content st.stSize st.stSize 0 w
      if offset < st.stSize then (-1, w) else (0, w.close f.fd)

/-- `strftime`; `none` is the return value zero. -/
def strftime (w : World) : Option Bytes × World :=
  (w.env.strftime 0, { w with env := { w.env with strftime := tail w.env.strftime } })

/-- `pipe`. -/
def pipe (w : World) : Option (ℕ × ℕ) × World :=
  let w' := { w with env := { w.env with pipe := tail w.env.pipe } }
  match w.env.pipe 0 with
  | some ends => (some ends, w'.log (.pipe ends))
  | none => (none, w')

/-- `fork`, in the parent. -/
def fork (w : World) : Option ℕ × World :=
  let w' := { w with env := { w.env with fork := tail w.env.fork } }
  match w.env.fork 0 with
  | some pid => (some pid, w'.log (.fork pid))
  | none => (none, w')

/-- The loop that writes the arguments of a script, with `left` bytes to go. -/
def writeArgs (fd : ℕ) (args : Option Bytes) : ℕ → ℕ → World → World
  | 0, _, w => w
  | fuel + 1, left, w =>
    if left = 0 then w
    else
      let w' := { w with env := { w.env with write := tail w.env.write } }
      match w.env.write 0 with
      | none => w'
      | some n =>
        let k := min (n + 1) left
        writeArgs fd (args.map (·.drop k)) fuel (left - k)
          (w'.log (.write fd (args.map (·.take k))))

/-- The loop that collects the output of a script.  `none` is the return from inside
the loop, when the buffer is full. -/
def readOutput (fd : ℕ) : ℕ → Bytes → World → Option Bytes × World
  | 0, _, w => (none, w)
  | fuel + 1, out, w =>
    if maxBuffr ≤ out.length then (none, w)
    else
      let w' := { w with env := { w.env with read := tail w.env.read } }
      match w.env.read 0 with
      | none => (some out, w')
      | some (b, bs) =>
        let chunk := (b :: bs).take (maxBuffr - out.length)
        readOutput fd fuel (out ++ chunk) (w'.log (.read fd chunk))

/-- The header block of a script response. -/
def scriptResponse (sc : ServerConf) (date : Bytes) (totalBytes : ℕ) : HttpResponse :=
  let response : HttpResponse := ⟨.ok, []⟩
  let response := addHeader response (ascii "Date") date
  let response := addHeader response (ascii "Server") sc.serverSignature
  let response := addHeader response (ascii "Content-Length") (printInt totalBytes)
  let response := addHeader response (ascii "Content-Type") (ascii "text/plain")
  addHeader response (ascii "Connection") (ascii "Close")

@[simp] theorem status_scriptResponse (sc : ServerConf) (date : Bytes) (totalBytes : ℕ) :
    (scriptResponse sc date totalBytes).status = .ok := by
  simp [scriptResponse]

/-- `process_script`, from the collected output on. -/
def sendScriptOutput (sc : ServerConf) (out : Bytes) (w : World) : Int × World :=
  let (date, w) := strftime w
  match date with
  | none => (-1, (httpSendError .internalError w).2)
  | some date =>
    match serializeResponse (scriptResponse sc date out.length) maxBuffr with
    | none => (0, (httpSendError .internalError w).2)
    | some buffer =>
      let (ret, w) := tcpSend buffer w
      if ret < 0 then (-1, w)
      else
        let (ret, w) := tcpSend out w
        if ret < 0 then (-1, w) else (0, w)

/-- `process_script`, from the second `open_safe` on, which is not tested and whose
descriptor is never closed. -/
def runScript (sc : ServerConf) (args : Body) (path : Bytes) (w : World) : Int × World :=
  let (_, w) := openSafe path w
  let (inpipe, w) := pipe w
  match inpipe with
  | none => (-1, w)
  | some inpipe =>
    let (outpipe, w) := pipe w
    match outpipe with
    | none => (-1, (w.close inpipe.1).close inpipe.2)
    | some outpipe =>
      let (pid, w) := fork w
      match pid with
      | none => (-1, (((w.close inpipe.1).close inpipe.2).close outpipe.1).close outpipe.2)
      | some pid =>
        let w := (w.close inpipe.1).close outpipe.2
        let w := writeArgs inpipe.2 args.bytes args.size.toNat args.size.toNat w
        let w := w.close inpipe.2
        let (out, w) := readOutput outpipe.1 (maxBuffr + 1) [] w
        let w := (w.close outpipe.1).log (.waitpid pid)
        match out with
        | none => (-1, w)
        | some out => sendScriptOutput sc out w

/-- `process_script`. -/
def processScript (sc : ServerConf) (args : Body) (path : Bytes) (w : World) : Int × World :=
  let (ret, w) := getFileExists path w
  if ret = -2 then (-2, (httpSendError .notFound w).2)
  else if ret = -3 then (-2, (httpSendError .notAllowed w).2)
  else if ret = -1 then (-1, w)
  else runScript sc args path w

/-- `process_options`. -/
def processOptions (w : World) : Int × World :=
  let response : HttpResponse := ⟨.noContent, []⟩
  let response := addHeader response (ascii "Allow") (ascii "GET, POST, OPTIONS")
  let response := addHeader response (ascii "Content-Length") (ascii "0")
  match serializeResponse response maxBuffr with
  | none => (0, (httpSendError .internalError w).2)
  | some buffer =>
    let (ret, w) := tcpSend buffer w
    if ret < 0 then (-1, w) else (0, w)

/-- `process_post`.  A path that is not a script gets no answer. -/
def processPost (sc : ServerConf) (request : HttpRequest) (w : World) : Int × World :=
  if checkPathTraversal request.url then (0, (httpSendError .forbidden w).2)
  else
    match buildPath (urlPath request.url) with
    | none => (0, (httpSendError .badRequest w).2)
    | some path =>
      if isScript path then
        let (ret, w) := processScript sc request.body path w
        if ret = -1 then (-1, w) else (0, w)
      else (0, w)

/-- The header block of a file response. -/
def fileResponse (sc : ServerConf) (date lastMod : Bytes) (fileSize : Int) (mimeType : Bytes) :
    HttpResponse :=
  let response : HttpResponse := ⟨.ok, []⟩
  let response := addHeader response (ascii "Date") date
  let response := addHeader response (ascii "Server") sc.serverSignature
  let response := addHeader response (ascii "Last-Modified") lastMod
  let response := addHeader response (ascii "Content-Length") (printInt fileSize)
  let response := addHeader response (ascii "Content-Type") mimeType
  addHeader response (ascii "Connection") (ascii "Close")

@[simp] theorem status_fileResponse (sc : ServerConf) (date lastMod : Bytes) (fileSize : Int)
    (mimeType : Bytes) : (fileResponse sc date lastMod fileSize mimeType).status = .ok := by
  simp [fileResponse]

/-- `process_get` for a path that is not a script. -/
def serveFile (sc : ServerConf) (path : Bytes) (w : World) : Int × World :=
  let (ret, info, w) := getFileInfo path w
  if ret = -2 then (0, (httpSendError .notFound w).2)
  else if ret = -3 then (0, (httpSendError .forbidden w).2)
  else
    match info with
    | none => (-1, w)
    | some (fileSize, _) =>
      let (date, w) := strftime w
      match date with
      | none => (0, (httpSendError .internalError w).2)
      | some date =>
        let (lastMod, w) := strftime w
        match lastMod with
        | none => (0, (httpSendError .internalError w).2)
        | some lastMod =>
          let response := fileResponse sc date lastMod fileSize (getMimeType path)
          match serializeResponse response maxBuffr with
          | none => (0, (httpSendError .internalError w).2)
          | some buffer =>
            let (ret, w) := tcpSend buffer w
            if ret < 0 then (0, (httpSendError .internalError w).2)
            else
              let (ret, w) := sendFile path w
              if ret < 0 then (-1, w) else (0, w)

/-- `process_get`. -/
def processGet (sc : ServerConf) (request : HttpRequest) (w : World) : Int × World :=
  if checkPathTraversal request.url then (0, (httpSendError .forbidden w).2)
  else
    match buildPath (urlPath request.url) with
    | none => (0, (httpSendError .badRequest w).2)
    | some path =>
      if isScript path then
        let query := urlQuery request.url
        let (ret, w) := processScript sc ⟨query.length, some query⟩ path w
        if ret = -2 then (0, w) else (ret, w)
      else serveFile sc path w

/-- `http_process_request`. -/
def httpProcessRequest (sc : ServerConf) (request : HttpRequest) (w : World) : Int × World :=
  match requestMethodType request.method with
  | .get => processGet sc request w
  | .post => processPost sc request w
  | .options => processOptions w
  | .unknown => httpSendError .notAllowed w

end BareHttp
