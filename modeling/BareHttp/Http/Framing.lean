import BareHttp.Http.ContentLength
import BareHttp.Http.Delivery
import BareHttp.Worker.Connection

/-!
# The length of a file response

The header block of a file response says how many bytes follow.  The number is the size that
the first `fstat` reports, narrowed to an `int`; the bytes are those of a second open, up to
the size that a second `fstat` reports.  Nothing connects the two but the path.

If every call on the socket takes what it is given, the number of bytes is that of the object
that is opened second (`available`), and it is the declared one exactly when both agree
modulo `2 ^ 32` and the object is smaller than `2 ^ 31` (`framed_iff`).  A file that stays as
it is passes this test below two gigabytes.  A directory does not: it opens and has a size,
but yields no bytes.

A worker that is told of a failed transfer puts an error page behind what was sent.  The
client sees it where the file should be, so the bytes of the page count there.
-/

namespace BareHttp

/-! ## Reading a number back -/

/-- A decimal number with an optional minus sign. -/
def readDecimal (s : Bytes) : Option Int :=
  match s with
  | 45 :: t => if t ≠ [] ∧ t.all isDigit = true then some (-(decimal t)) else none
  | t => if t ≠ [] ∧ t.all isDigit = true then some (decimal t) else none

/-- The number in the header `Content-Length` of a response. -/
def HttpResponse.declaredLength (response : HttpResponse) : Option Int :=
  (response.headers.find? fun h => h.1 = ascii "Content-Length").bind fun h => readDecimal h.2

theorem isDigit_toUInt8 {c : Char} (h : c.isDigit = true) :
    isDigit c.toNat.toUInt8 = true ∧ c.toNat.toUInt8.toNat = c.toNat := by
  have hmem : 48 ≤ c.toNat ∧ c.toNat ≤ 57 := by
    simpa [Char.isDigit, UInt32.le_iff_toNat_le] using h
  have hnat : c.toNat.toUInt8.toNat = c.toNat := by
    show c.toNat % 256 = c.toNat
    omega
  refine ⟨?_, hnat⟩
  simp only [isDigit, Bool.and_eq_true, decide_eq_true_eq, UInt8.le_iff_toNat_le, hnat]
  exact hmem

/-- The digits of a number denote it. -/
theorem digits_repr (n : ℕ) :
    ascii n.repr ≠ [] ∧ (ascii n.repr).all isDigit = true ∧ decimal (ascii n.repr) = n := by
  have hdigit : ∀ c ∈ Nat.toDigits 10 n, c.isDigit = true := fun c hc =>
    Nat.isDigit_of_mem_toDigits (by decide) (by decide) hc
  have hfold : ∀ (cs : List Char) (k : ℕ), (∀ c ∈ cs, c.isDigit = true) →
      (cs.map fun c => c.toNat.toUInt8).foldl (fun n c => 10 * n + (c.toNat - 48)) k =
        Nat.ofDigitChars 10 cs k := by
    intro cs
    induction cs with
    | nil => simp
    | cons c cs ih =>
      intro k hcs
      rw [Nat.ofDigitChars_cons, List.map_cons, List.foldl_cons,
        ih _ fun d hd => hcs d (List.mem_cons_of_mem c hd),
        (isDigit_toUInt8 (hcs c List.mem_cons_self)).2]
      rfl
  have hascii : ascii n.repr = (Nat.toDigits 10 n).map fun c => c.toNat.toUInt8 := by
    rw [ascii, Nat.toList_repr]
  rw [hascii]
  refine ⟨by simp [Nat.toDigits_ne_nil], ?_, ?_⟩
  · rw [List.all_map, List.all_eq_true]
    exact fun c hc => (isDigit_toUInt8 (hdigit c hc)).1
  · rw [decimal, hfold _ 0 hdigit, Nat.ofDigitChars_ten_toDigits]

/-- **What `"%d"` writes is read back.** -/
theorem readDecimal_printInt (z : Int) : readDecimal (printInt z) = some z := by
  cases z with
  | ofNat n =>
    obtain ⟨hne, hall, hval⟩ := digits_repr n
    have hprint : printInt (Int.ofNat n) = ascii n.repr := rfl
    have hsign : ∀ t, ascii n.repr ≠ 45 :: t := by
      intro t heq
      rw [heq] at hall
      exact absurd hall (by simp [isDigit])
    rw [hprint, readDecimal.eq_2 _ hsign, if_pos ⟨hne, hall⟩, hval]
    rfl
  | negSucc n =>
    obtain ⟨hne, hall, hval⟩ := digits_repr (n + 1)
    have hprint : printInt (Int.negSucc n) = 45 :: ascii (n + 1).repr := by
      show ascii ("-" ++ (n + 1).repr) = _
      rw [ascii, String.toList_append, List.map_append]
      rfl
    rw [hprint, readDecimal, if_pos ⟨hne, hall⟩, hval]
    rfl

/-- The declared length of a file response is the size it was made with. -/
theorem declaredLength_fileResponse (sc : ServerConf) (date lastMod : Bytes) (fileSize : Int)
    (mimeType : Bytes) :
    (fileResponse sc date lastMod fileSize mimeType).declaredLength = some fileSize := by
  have hheaders : (fileResponse sc date lastMod fileSize mimeType).headers =
      [(ascii "Date", date), (ascii "Server", sc.serverSignature),
        (ascii "Last-Modified", lastMod), (ascii "Content-Length", printInt fileSize),
        (ascii "Content-Type", mimeType), (ascii "Connection", ascii "Close")] := by
    simp [fileResponse, addHeader, maxHeaders]
  have h₁ : ascii "Date" ≠ ascii "Content-Length" := by decide
  have h₂ : ascii "Server" ≠ ascii "Content-Length" := by decide
  have h₃ : ascii "Last-Modified" ≠ ascii "Content-Length" := by decide
  simp [HttpResponse.declaredLength, hheaders, h₁, h₂, h₃, readDecimal_printInt]

/-! ## The bytes of the file -/

/-- The results of `sendfile` where the socket takes what it is given. -/
def SocketTakes (results : ℕ → SendfileResult) : Prop := ∀ k, ∃ n, results k = .some n

theorem SocketTakes.tail {results : ℕ → SendfileResult} (h : SocketTakes results) :
    SocketTakes (tail results) :=
  fun k => h (k + 1)

/-- **The transfer ends with the file or with its size**, whichever comes first. -/
theorem finalOffset_of_socketTakes (content : Bytes) (size : ℕ) {fuel offset : ℕ}
    {results : ℕ → SendfileResult} (htakes : SocketTakes results) (hfuel : size ≤ offset + fuel)
    (hoffset : offset ≤ min size content.length) :
    finalOffset content size fuel offset results = min size content.length := by
  induction fuel generalizing offset results with
  | zero =>
    simp only [finalOffset]
    omega
  | succ fuel ih =>
    obtain ⟨n, hn⟩ := htakes 0
    have hlength : ((results 0).moved content offset (size - offset)).length =
        min (min (n + 1) (min (size - offset) sendfileMax)) (content.length - offset) := by
      rw [hn, SendfileResult.moved, List.length_take, List.length_drop]
    have hmax : 0 < sendfileMax := by decide
    simp only [finalOffset]
    split_ifs with hlt hmoved
    · -- a call that moves nothing is at the end of the file
      rw [hmoved, List.length_nil] at hlength
      omega
    · have hpos := List.length_pos_of_ne_nil hmoved
      exact ih htakes.tail (by omega) (by omega)
    · omega

/-- The bytes the second open yields: up to the size reported for it, and none if it or its
`fstat` fails.  A directory has no content. -/
def available (opened : Except Errno Opened) (stat : Option Stat) : ℕ :=
  match opened, stat with
  | .ok f, some st => min st.stSize f.content.length
  | _, _ => 0

/-- The second open yields all of the size reported for it. -/
def sentWhole (opened : Except Errno Opened) (stat : Option Stat) : Bool :=
  match opened, stat with
  | .ok f, some st => st.stSize ≤ f.content.length
  | _, _ => false

/-- The bytes a worker puts behind a transfer that failed: the page about it. -/
def trailing (opened : Except Errno Opened) (stat : Option Stat) : ℕ :=
  if sentWhole opened stat then 0
  else (errorHeaders .internalError ++ errorBody .internalError).length

theorem length_fileBytes (opened : Except Errno Opened) (stat : Option Stat)
    {results : ℕ → SendfileResult} (htakes : SocketTakes results) :
    (fileBytes opened stat results).length = available opened stat := by
  cases opened with
  | error e => rfl
  | ok f =>
    cases stat with
    | none => rfl
    | some st =>
      simp only [fileBytes, available, List.length_take]
      rw [finalOffset_of_socketTakes f.content st.stSize htakes (by omega) (by omega)]
      omega

theorem fileFails_iff (opened : Except Errno Opened) (stat : Option Stat)
    {results : ℕ → SendfileResult} (htakes : SocketTakes results) :
    FileFails opened stat results ↔ sentWhole opened stat = false := by
  cases opened with
  | error e => exact iff_of_true trivial rfl
  | ok f =>
    cases stat with
    | none => exact iff_of_true trivial rfl
    | some st =>
      simp only [FileFails, sentWhole, decide_eq_false_iff_not]
      rw [← finalOffset_lt_iff f.content st.stSize st.stSize 0 results (by omega),
        finalOffset_of_socketTakes f.content st.stSize htakes (by omega) (by omega)]
      omega

/-- `send_file` makes no `send`. -/
theorem send_sendFile (path : Bytes) (w : World) : (sendFile path w).2.env.send = w.env.send := by
  have hloop : ∀ (content : Bytes) (size fuel offset : ℕ) (w : World),
      (sendFileLoop content size fuel offset w).2.env.send = w.env.send := by
    intro content size fuel
    induction fuel with
    | zero => exact fun _ _ => rfl
    | succ fuel ih =>
      intro offset w
      simp only [sendFileLoop]
      split_ifs
      · rfl
      · exact ih _ _
      · rfl
  obtain ⟨w₁, hopen, -, hu₁⟩ := openSafe_spec path w
  obtain ⟨w₂, hstat, -, hu₂⟩ := fstat_spec w₁
  unfold sendFile
  simp only [hopen]
  cases w.env.openat2 0 with
  | error e => exact hu₁.send_eq
  | ok f =>
    simp only [hstat]
    cases w₁.env.fstat 0 with
    | none => exact (hu₁.trans hu₂).send_eq
    | some st =>
      simp only
      split_ifs
      · exact (hloop _ _ _ _ w₂).trans (hu₁.trans hu₂).send_eq
      · exact (hloop _ _ _ _ w₂).trans (hu₁.trans hu₂).send_eq

/-! ## Framing -/

/-- The response `process_get` makes for a file. -/
def fileHead (sc : ServerConf) (path : Bytes) (env : Env) : Option HttpResponse :=
  match env.fstat 0, env.strftime 0, env.strftime 1 with
  | some st, some date, some lastMod =>
    some (fileResponse sc date lastMod (CInt.toInt32 st.stSize) (getMimeType path))
  | _, _, _ => none

/-- **A response is framed by its length**: what is sent is the header block of the response
and as many bytes as it declares. -/
def Framed (sc : ServerConf) (path : Bytes) (env : Env) (sent : Bytes) : Prop :=
  ∃ response header body, fileHead sc path env = some response ∧
    serializeResponse response maxBuffr = some header ∧ sent = header ++ body ∧
    response.declaredLength = some (body.length : Int)

/-- What has happened where a file is to be sent. -/
theorem filePlan_eq_file {sc : ServerConf} {path path' header : Bytes} {env : Env}
    (h : filePlan sc path env = .file header path') :
    path' = path ∧ ∃ st response, env.fstat 0 = some st ∧ fileHead sc path env = some response ∧
      response.declaredLength = some (CInt.toInt32 st.stSize) ∧
      serializeResponse response maxBuffr = some header := by
  unfold filePlan at h
  cases hopen : env.openat2 0 with
  | error e =>
    simp only [hopen] at h
    cases e <;> exact absurd h (by simp)
  | ok f =>
    simp only [hopen] at h
    split at h
    · exact absurd h (by simp)
    · next st hst =>
      split at h
      · next date lastMod hdate hmod =>
        split at h
        · exact absurd h (by simp)
        · next text hser =>
          obtain ⟨rfl, rfl⟩ := Plan.file.inj h
          exact ⟨rfl, st, _, hst, by simp only [fileHead, hst, hdate, hmod],
            declaredLength_fileResponse .., hser⟩
      · exact absurd h (by simp)

/-- A file is sent for the path of the URL. -/
theorem plan_eq_file {sc : ServerConf} {request : HttpRequest} {env : Env} {header path : Bytes}
    (h : plan sc request env = .file header path) : filePlan sc path env = .file header path := by
  unfold plan at h
  split at h
  · exact absurd h (by simp)
  · exact absurd h (by simp)
  · split at h
    · exact absurd h (by simp)
    · split at h
      · exact absurd h (by simp)
      · split_ifs at h
        · exact absurd h (scriptPlan_ne_file sc env header path)
        · obtain ⟨rfl, -⟩ := filePlan_eq_file h
          exact h

section

variable {sc : ServerConf} {request : HttpRequest} {env : Env} {header path : Bytes}

/-- The response is framed where the narrowed size is the number of bytes behind the header
block. -/
theorem framed_append_iff {body : Bytes} (hplan : plan sc request env = .file header path) :
    Framed sc path env (header ++ body) ↔ ∃ st, env.fstat 0 = some st ∧
      body.length < 2147483648 ∧ st.stSize % 4294967296 = body.length := by
  obtain ⟨-, st, response, hst, hhead, hlen, hser⟩ := filePlan_eq_file (plan_eq_file hplan)
  have hnarrow : CInt.toInt32 st.stSize = body.length ↔
      body.length < 2147483648 ∧ st.stSize % 4294967296 = body.length := by
    unfold CInt.toInt32
    omega
  constructor
  · rintro ⟨response', header', body', hhead', hser', hsent, hlen'⟩
    obtain rfl : response = response' := Option.some.inj (hhead.symm.trans hhead')
    obtain rfl : header = header' := Option.some.inj (hser.symm.trans hser')
    obtain rfl : body = body' := List.append_cancel_left hsent
    exact ⟨st, hst, hnarrow.mp (Option.some.inj (hlen.symm.trans hlen'))⟩
  · rintro ⟨st', hst', hsize⟩
    obtain rfl : st = st' := Option.some.inj (hst.symm.trans hst')
    exact ⟨response, header, body, hhead, hser, rfl, by rw [hlen, hnarrow.mpr hsize]⟩

/-- **What `http_process_request` sends for a file**: the header block, and the bytes the
second open yields. -/
theorem sent_of_file (hsend : ∀ k, env.send k = .all) (htakes : SocketTakes env.sendfile)
    (hplan : plan sc request env = .file header path) :
    ∃ body, (httpProcessRequest sc request ⟨env, []⟩).2.sent = header ++ body ∧
      body.length = available (env.openat2 1) (env.fstat 1) := by
  refine ⟨_, ?_, length_fileBytes _ _ htakes⟩
  rw [(httpProcessRequest_spec sc request ⟨env, []⟩).2, hplan]
  simp [Plan.delivered, hsend, SendResult.accepted, SendResult.failed, World.sent]

/-- The calls for a file leave a socket that takes everything. -/
theorem send_of_file (hsend : ∀ k, env.send k = .all)
    (hplan : plan sc request env = .file header path) (k : ℕ) :
    (httpProcessRequest sc request ⟨env, []⟩).2.env.send k = .all := by
  obtain ⟨w, hu, heq, -⟩ := httpProcessRequest_eq_deliver sc request ⟨env, []⟩
  have hsend' : ∀ k, w.env.send k = .all := fun k => by rw [hu.send_eq]; exact hsend k
  obtain ⟨hret, henv, -⟩ := tcpSend_spec header w
  have hok : ¬ (tcpSend header w).1 < 0 := by
    rw [hret, hsend']
    decide
  rw [heq, hplan]
  simp only [deliver, if_neg hok, send_sendFile, henv, tail_apply]
  exact hsend' (k + 1)

/-- **What a worker sends for a file**: a page behind that, if the transfer failed. -/
theorem sent_of_file_by_worker (hsend : ∀ k, env.send k = .all)
    (htakes : SocketTakes env.sendfile) (hplan : plan sc request env = .file header path) :
    ∃ body, (Worker.answer sc (.complete request) ⟨env, []⟩).2.sent = header ++ body ∧
      body.length = available (env.openat2 1) (env.fstat 1) +
        trailing (env.openat2 1) (env.fstat 1) := by
  obtain ⟨body, hsent, hlen⟩ := sent_of_file hsend htakes hplan
  have hneg : (httpProcessRequest sc request ⟨env, []⟩).1 < 0 ↔
      sentWhole (env.openat2 1) (env.fstat 1) = false := by
    rw [(httpProcessRequest_spec sc request ⟨env, []⟩).1, hplan, ← fileFails_iff _ _ htakes]
    simp [Plan.Fails, hsend, SendResult.failed]
  unfold Worker.answer trailing
  cases hwhole : sentWhole (env.openat2 1) (env.fstat 1) with
  | true =>
    simp only [if_neg (mt hneg.mp (by simp [hwhole])), if_true, Nat.add_zero]
    exact ⟨body, hsent, hlen⟩
  | false =>
    have hpage : pageBytes .internalError
        (httpProcessRequest sc request ⟨env, []⟩).2.env.send =
          errorHeaders .internalError ++ errorBody .internalError := by
      simp [pageBytes, send_of_file hsend hplan, SendResult.accepted, SendResult.failed]
    simp only [if_pos (hneg.mpr hwhole), Bool.false_eq_true, if_false]
    refine ⟨body ++ (errorHeaders .internalError ++ errorBody .internalError), ?_, ?_⟩
    · rw [(httpSendError_spec _ _).2, hpage, hsent, List.append_assoc]
    · rw [List.length_append, hlen]

/-- **Exactly when a file response is framed by its length.**  The bytes behind the header
block are fewer than `2 ^ 31`, and the size first reported is their number modulo `2 ^ 32`:
under the epoll server these are the bytes the second open yields, and a worker may add a
page to them. -/
theorem framed_iff (hsend : ∀ k, env.send k = .all) (htakes : SocketTakes env.sendfile)
    (hplan : plan sc request env = .file header path) :
    (Framed sc path env (httpProcessRequest sc request ⟨env, []⟩).2.sent ↔
      ∃ st, env.fstat 0 = some st ∧ available (env.openat2 1) (env.fstat 1) < 2147483648 ∧
        st.stSize % 4294967296 = available (env.openat2 1) (env.fstat 1)) ∧
    (Framed sc path env (Worker.answer sc (.complete request) ⟨env, []⟩).2.sent ↔
      ∃ st, env.fstat 0 = some st ∧
        available (env.openat2 1) (env.fstat 1) + trailing (env.openat2 1) (env.fstat 1) <
          2147483648 ∧
        st.stSize % 4294967296 =
          available (env.openat2 1) (env.fstat 1) + trailing (env.openat2 1) (env.fstat 1)) := by
  obtain ⟨body, hsent, hlen⟩ := sent_of_file hsend htakes hplan
  obtain ⟨body', hsent', hlen'⟩ := sent_of_file_by_worker hsend htakes hplan
  rw [hsent, hsent', framed_append_iff hplan, framed_append_iff hplan, hlen, hlen']
  exact ⟨Iff.rfl, Iff.rfl⟩

end

/-- A file of four bytes that stays as it is. -/
def smallFile : Env := Env.calm ⟨12, ascii "body"⟩ (ascii "Thu, 01 Jan 1970 00:00:00 GMT")

/-- A directory: it opens and has a size, and nothing can be read from it. -/
def directory : Env :=
  { Env.calm ⟨12, []⟩ (ascii "Thu, 01 Jan 1970 00:00:00 GMT") with
    fstat := fun _ => some ⟨4096, 0⟩ }

/-- A plan to send a file. -/
def Plan.header? : Plan → Option (Bytes × Bytes)
  | .file header path => some (header, path)
  | _ => none

theorem eq_file_of_header? {p : Plan} {header path : Bytes} (h : p.header? = some (header, path)) :
    p = .file header path := by
  cases p with
  | file header' path' => simpa [Plan.header?] using h
  | _ => exact absurd h (by simp [Plan.header?])

/-- **A file that stays as it is**, smaller than two gigabytes. -/
theorem smallFile_framed :
    Framed sampleConf (ascii "/a.txt") smallFile
      (httpProcessRequest sampleConf getFile ⟨smallFile, []⟩).2.sent := by
  have hplan : ((plan sampleConf getFile smallFile).header?.map Prod.snd) =
      some (ascii "/a.txt") := by decide +kernel
  obtain ⟨⟨header, path⟩, heq, rfl⟩ := Option.map_eq_some_iff.mp hplan
  exact (framed_iff (fun _ => rfl) (fun _ => ⟨_, rfl⟩) (eq_file_of_header? heq)).1.mpr
    ⟨⟨4, 0⟩, by decide, by decide, by decide⟩

/-- **A directory** is announced with its size and nothing is sent for it. -/
theorem directory_not_framed :
    ∃ header path, plan sampleConf getFile directory = .file header path ∧
      (httpProcessRequest sampleConf getFile ⟨directory, []⟩).2.sent = header ∧
      ¬ Framed sampleConf path directory
        (httpProcessRequest sampleConf getFile ⟨directory, []⟩).2.sent := by
  have hplan : (plan sampleConf getFile directory).header?.isSome = true := by decide +kernel
  obtain ⟨⟨header, path⟩, heq⟩ := Option.isSome_iff_exists.mp hplan
  have hfile := eq_file_of_header? heq
  obtain ⟨body, hsent, hlen⟩ := sent_of_file (fun _ => rfl) (fun _ => ⟨_, rfl⟩) hfile
  obtain rfl : body = [] := List.eq_nil_of_length_eq_zero (hlen.trans (by decide))
  refine ⟨header, path, hfile, by rw [hsent, List.append_nil], ?_⟩
  rw [hsent, framed_append_iff hfile]
  rintro ⟨st, hst, -, hsize⟩
  obtain rfl : (⟨4096, 0⟩ : Stat) = st := Option.some.inj hst
  exact absurd hsize (by decide)

end BareHttp
