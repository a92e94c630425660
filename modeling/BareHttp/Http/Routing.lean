import BareHttp.Foundation.TwoRuns
import BareHttp.Http.Query
import BareHttp.Http.Traversal

/-!
# From the URL to the resource

Both handlers look at the URL four times: the filter reads all of it, the query is cut off, the
path is copied if it is not too long, and the part behind its last dot decides between a script
and a file.  What they decide is a function of the URL (`decision`), and the handlers do nothing
else with it (`processGetWith_eq`, `processPostWith_eq`).

Two things are asked of the decision.  A script is never sent as a file, and a file is never
run, by whichever of the three places that look for the last dot (`script_dispatch`).  And the
query has no part in it: this holds up to the filter, which reads the query as well, so that a
query in which there is a URL gets a page refused (`sameResource_iff`).
-/

namespace BareHttp

open TwoRuns

/-! ## The decision -/

/-- What a handler decides from the URL. -/
inductive Decision where
  | refused (status : HttpStatus)
  | script (path : Bytes)
  | file (path : Bytes)
  deriving DecidableEq

/-- The decision for a URL without its query: the length of the path, and its kind. -/
def pathDecision (url : Bytes) : Decision :=
  match buildPath url with
  | none => .refused .badRequest
  | some path => if isScript path then .script path else .file path

/-- The decision for a URL: the filter, and then the path. -/
def decision (url : Bytes) : Decision :=
  if checkPathTraversal url then .refused .forbidden else pathDecision (urlPath url)

/-- `process_get` for a path that is not a script, with `send_file` as a parameter. -/
def serveFileWith (send : Bytes → World → Int × World) (sc : ServerConf) (path : Bytes)
    (w : World) : Int × World :=
  let (ret, info, w) := getFileInfo path w
  if ret = -2 then (0, (httpSendError .notFound w).2)
  else if ret = -3 then (0, (httpSendError .forbidden w).2)
  else
    match info with
    | none => (-1, w)
    | some (fileSize, _) =>
      let (date, w) := strftime w
      match date with
      | none => (0, (httpSendError .internalError w).2)
      | some date =>
        let (lastMod, w) := strftime w
        match lastMod with
        | none => (0, (httpSendError .internalError w).2)
        | some lastMod =>
          let response := fileResponse sc date lastMod fileSize (getMimeType path)
          match serializeResponse response maxBuffr with
          | none => (0, (httpSendError .internalError w).2)
          | some buffer =>
            let (ret, w) := tcpSend buffer w
            if ret < 0 then (0, (httpSendError .internalError w).2)
            else
              let (ret, w) := send path w
              if ret < 0 then (-1, w) else (0, w)

/-- `process_get`, with `process_script` and `send_file` as parameters. -/
def processGetWith (script : Body → Bytes → World → Int × World)
    (send : Bytes → World → Int × World) (sc : ServerConf) (request : HttpRequest) (w : World) :
    Int × World :=
  if checkPathTraversal request.url then (0, (httpSendError .forbidden w).2)
  else
    match buildPath (urlPath request.url) with
    | none => (0, (httpSendError .badRequest w).2)
    | some path =>
      if isScript path then
        let query := urlQuery request.url
        let (ret, w) := script ⟨query.length, some query⟩ path w
        if ret = -2 then (0, w) else (ret, w)
      else serveFileWith send sc path w

/-- `process_post`, with `process_script` as a parameter. -/
def processPostWith (script : Body → Bytes → World → Int × World) (request : HttpRequest)
    (w : World) : Int × World :=
  if checkPathTraversal request.url then (0, (httpSendError .forbidden w).2)
  else
    match buildPath (urlPath request.url) with
    | none => (0, (httpSendError .badRequest w).2)
    | some path =>
      if isScript path then
        let (ret, w) := script request.body path w
        if ret = -1 then (-1, w) else (0, w)
      else (0, w)

theorem serveFile_eq_with (sc : ServerConf) (path : Bytes) (w : World) :
    serveFile sc path w = serveFileWith sendFile sc path w := by
  rfl

theorem processGet_eq_with (sc : ServerConf) (request : HttpRequest) (w : World) :
    processGet sc request w = processGetWith (processScript sc) sendFile sc request w := by
  have hserve : serveFile sc = serveFileWith sendFile sc := by
    funext path w
    exact serveFile_eq_with sc path w
  unfold processGet processGetWith
  exact hserve ▸ rfl

theorem processPost_eq_with (sc : ServerConf) (request : HttpRequest) (w : World) :
    processPost sc request w = processPostWith (processScript sc) request w := by
  unfold processPost processPostWith
  rfl

section Handlers

variable (script : Body → Bytes → World → Int × World) (send : Bytes → World → Int × World)
  (sc : ServerConf) (request : HttpRequest) (w : World)

/-- **`process_get` does what is decided.** -/
theorem processGetWith_eq :
    processGetWith script send sc request w =
      match decision request.url with
      | .refused status => (0, (httpSendError status w).2)
      | .script path =>
        let query := urlQuery request.url
        let (ret, w) := script ⟨query.length, some query⟩ path w
        if ret = -2 then (0, w) else (ret, w)
      | .file path => serveFileWith send sc path w := by
  unfold processGetWith decision pathDecision
  by_cases htrav : checkPathTraversal request.url = true
  · simp only [if_pos htrav]
  · simp only [if_neg htrav]
    cases buildPath (urlPath request.url) with
    | none => rfl
    | some path => cases hscript : isScript path <;> simp [hscript]

/-- **`process_post` does what is decided**: a file gets no answer. -/
theorem processPostWith_eq :
    processPostWith script request w =
      match decision request.url with
      | .refused status => (0, (httpSendError status w).2)
      | .script path =>
        let (ret, w) := script request.body path w
        if ret = -1 then (-1, w) else (0, w)
      | .file _ => (0, w) := by
  unfold processPostWith decision pathDecision
  by_cases htrav : checkPathTraversal request.url = true
  · simp only [if_pos htrav]
  · simp only [if_neg htrav]
    cases buildPath (urlPath request.url) with
    | none => rfl
    | some path => cases hscript : isScript path <;> simp [hscript]

end Handlers

/-! ## The last dot -/

theorem strrchr_eq_none_iff (c : UInt8) (s : Bytes) : strrchr c s = none ↔ c ∉ s := by
  induction s with
  | nil => simp [strrchr]
  | cons a s ih =>
    cases hs : strrchr c s with
    | some t =>
      have hmem : c ∈ s := by
        by_contra hc
        exact absurd (hs.symm.trans (ih.mpr hc)) (by simp)
      simp [strrchr, hs, hmem]
    | none =>
      have hc : c ∉ s := ih.mp hs
      by_cases ha : a = c
      · simp [strrchr, hs, ha]
      · have hne : ¬ c = a := fun h => ha h.symm
        simp [strrchr, hs, ha, hc, hne]

/-- **What `strrchr` finds** is the end of the string that begins with `c` and has no other. -/
theorem strrchr_eq_some_iff (c : UInt8) (s t : Bytes) :
    strrchr c s = some t ↔ ∃ e, t = c :: e ∧ c ∉ e ∧ t <:+ s := by
  induction s with
  | nil =>
    refine iff_of_false (by simp [strrchr]) ?_
    rintro ⟨e, rfl, -, hsuf⟩
    exact absurd (List.suffix_nil.mp hsuf) (by simp)
  | cons a s ih =>
    simp only [List.suffix_cons_iff]
    cases hs : strrchr c s with
    | some u =>
      have hmem : c ∈ s := by
        by_contra hc
        exact absurd (hs.symm.trans ((strrchr_eq_none_iff c s).mpr hc)) (by simp)
      rw [hs] at ih
      simp only [strrchr, hs, ih]
      constructor
      · rintro ⟨e, rfl, he, hsuf⟩
        exact ⟨e, rfl, he, .inr hsuf⟩
      · rintro ⟨e, rfl, he, heq | hsuf⟩
        · obtain ⟨-, rfl⟩ := List.cons.inj heq
          exact absurd hmem he
        · exact ⟨e, rfl, he, hsuf⟩
    | none =>
      have hc : c ∉ s := (strrchr_eq_none_iff c s).mp hs
      simp only [strrchr, hs]
      constructor
      · intro h
        split_ifs at h with ha
        rw [← Option.some.inj h, ha]
        exact ⟨s, rfl, hc, .inl rfl⟩
      · rintro ⟨e, rfl, he, heq | hsuf⟩
        · obtain ⟨rfl, rfl⟩ := List.cons.inj heq
          rw [if_pos rfl]
        · exact absurd (hsuf.subset List.mem_cons_self) hc

/-- `get_mime_type` looks at what `process_script` looks at, without the dot. -/
theorem extension_eq_strrchr (path : Bytes) :
    extension path = (strrchr 46 path).map fun ext => ext.drop 1 := by
  induction path with
  | nil => rfl
  | cons a path ih =>
    by_cases hmem : 46 ∈ path
    · obtain ⟨t, ht⟩ := Option.ne_none_iff_exists'.mp
        (mt (strrchr_eq_none_iff 46 path).mp (not_not.mpr hmem))
      have hlast : (path.reverse.takeWhile (· ≠ 46)).length ≠ path.reverse.length := by
        intro hlen
        have hall := List.takeWhile_eq_self_iff.mp
          ((List.takeWhile_prefix _).eq_of_length hlen)
        exact absurd (hall 46 (List.mem_reverse.mpr hmem)) (by decide)
      have hcons : extension (a :: path) = extension path := by
        rw [extension, extension, if_pos (List.mem_cons_of_mem a hmem), if_pos hmem,
          List.reverse_cons, List.takeWhile_append, if_neg hlast]
      rw [hcons, ih, strrchr, ht]
    · have hnone := (strrchr_eq_none_iff 46 path).mpr hmem
      have hall : path.reverse.takeWhile (· ≠ 46) = path.reverse := by
        refine List.takeWhile_eq_self_iff.mpr fun c hc => ?_
        simpa using fun h : c = 46 => hmem (h ▸ List.mem_reverse.mp hc)
      by_cases ha : a = 46
      · rw [extension, if_pos (by simp [ha]), List.reverse_cons, List.takeWhile_append, hall,
          if_pos rfl, strrchr, hnone]
        simp [ha]
      · have hne : ¬ 46 = a := fun h => ha h.symm
        rw [extension, if_neg (by simp [hmem, hne]), strrchr, hnone]
        simp [ha]

/-- A path ends in a dot and `e`. -/
theorem strrchr_dot_iff {path e : Bytes} (he : 46 ∉ e) :
    strrchr 46 path = some (46 :: e) ↔ 46 :: e <:+ path := by
  rw [strrchr_eq_some_iff]
  constructor
  · rintro ⟨e', -, -, hsuf⟩
    exact hsuf
  · intro hsuf
    exact ⟨e, rfl, he, hsuf⟩

theorem extension_eq_some_iff {path e : Bytes} (he : 46 ∉ e) :
    extension path = some e ↔ 46 :: e <:+ path := by
  rw [extension_eq_strrchr, ← strrchr_dot_iff he, Option.map_eq_some_iff]
  constructor
  · rintro ⟨t, ht, hdrop⟩
    obtain ⟨e', rfl, -, -⟩ := (strrchr_eq_some_iff 46 path t).mp ht
    obtain rfl : e' = e := hdrop
    exact ht
  · intro h
    exact ⟨_, h, rfl⟩

/-! ## Scripts and files -/

/-- The path ends in `.py` or in `.php`. -/
def ScriptPath (path : Bytes) : Prop := ascii ".py" <:+ path ∨ ascii ".php" <:+ path

/-- **The MIME type of a path**: that of a script behind `.py` and `.php`, and nowhere else. -/
theorem getMimeType_cases (path : Bytes) :
    (extension path = some (ascii "py") ∧ getMimeType path = ascii "text/x-python") ∨
      (extension path = some (ascii "php") ∧ getMimeType path = ascii "text/x-php") ∨
      (extension path ≠ some (ascii "py") ∧ extension path ≠ some (ascii "php") ∧
        getMimeType path ≠ ascii "text/x-python" ∧ getMimeType path ≠ ascii "text/x-php") := by
  by_cases hpy : extension path = some (ascii "py")
  · exact .inl ⟨hpy, by rw [getMimeType, hpy]; rfl⟩
  · by_cases hphp : extension path = some (ascii "php")
    · exact .inr (.inl ⟨hphp, by rw [getMimeType, hphp]; rfl⟩)
    · refine .inr (.inr ⟨hpy, hphp, ?_⟩)
      unfold getMimeType
      cases hext : extension path with
      | none => decide
      | some ext =>
        have hpy' : ext ≠ ascii "py" := fun h => hpy (by rw [hext, h])
        have hphp' : ext ≠ ascii "php" := fun h => hphp (by rw [hext, h])
        simp only [if_neg hpy', if_neg hphp']
        repeat refine iteInduction (motive := fun m => m ≠ ascii "text/x-python" ∧
          m ≠ ascii "text/x-php") (fun _ => by decide) fun _ => ?_
        decide

/-- A path of a script: what `get_mime_type` and the child of `process_script` make of it. -/
theorem scriptPath_cases {path : Bytes} (h : ScriptPath path) (fd : Int) :
    (getMimeType path = ascii "text/x-python" ∧ childExec path fd = .python (fullPath fd)) ∨
      (getMimeType path = ascii "text/x-php" ∧ childExec path fd = .php (fullPath fd)) := by
  have hpy : ascii ".py" <:+ path ↔ extension path = some (ascii "py") :=
    (extension_eq_some_iff (by decide)).symm
  have hphp : ascii ".php" <:+ path ↔ extension path = some (ascii "php") :=
    (extension_eq_some_iff (by decide)).symm
  rcases getMimeType_cases path with ⟨hext, hmime⟩ | ⟨hext, hmime⟩ | ⟨hnpy, hnphp, -⟩
  · have hdot : strrchr 46 path = some (ascii ".py") :=
      (strrchr_dot_iff (by decide)).mpr (hpy.mpr hext)
    exact .inl ⟨hmime, by rw [childExec, hdot]; rfl⟩
  · have hdot : strrchr 46 path = some (ascii ".php") :=
      (strrchr_dot_iff (by decide)).mpr (hphp.mpr hext)
    exact .inr ⟨hmime, by rw [childExec, hdot]; rfl⟩
  · exact absurd h (not_or.mpr ⟨fun hsuf => hnpy (hpy.mp hsuf), fun hsuf => hnphp (hphp.mp hsuf)⟩)

/-- **What both handlers take for a script** ends in `.py` or in `.php`. -/
theorem isScript_iff (path : Bytes) : isScript path = true ↔ ScriptPath path := by
  constructor
  · intro h
    rcases getMimeType_cases path with ⟨hext, -⟩ | ⟨hext, -⟩ | ⟨-, -, hpy, hphp⟩
    · exact .inl ((extension_eq_some_iff (by decide)).mp hext)
    · exact .inr ((extension_eq_some_iff (by decide)).mp hext)
    · exact absurd h (by simp [isScript, hpy, hphp])
  · intro h
    rcases scriptPath_cases h 0 with ⟨hmime, -⟩ | ⟨hmime, -⟩ <;> simp [isScript, hmime]

theorem scriptPath_of_decision {url path : Bytes} :
    (decision url = .script path → ScriptPath path) ∧
      (decision url = .file path → ¬ ScriptPath path) := by
  simp only [← isScript_iff]
  unfold decision pathDecision
  split_ifs
  · simp
  · cases buildPath (urlPath url) with
    | none => simp
    | some built =>
      simp only
      split_ifs with hscript
      · exact ⟨fun h => Decision.script.inj h ▸ hscript, by simp⟩
      · exact ⟨by simp, fun h => Decision.file.inj h ▸ hscript⟩

/-- `send_file` is only asked for the path of the file. -/
theorem serveFileWith_congr {send send' : Bytes → World → Int × World} (sc : ServerConf)
    {path : Bytes} (h : send path = send' path) (w : World) :
    serveFileWith send sc path w = serveFileWith send' sc path w := by
  unfold serveFileWith
  rw [h]

/-- **Scripts are run and files are sent.**  Whatever `process_script` and `send_file` do:
`process_get` and `process_post` call `process_script` for the path of a script only, for which
the interpreter is the one that the MIME type says; `process_get` calls `send_file` only for a
path that is not one; and where the URL is refused they call neither. -/
theorem script_dispatch (script : Body → Bytes → World → Int × World)
    (send : Bytes → World → Int × World) (sc : ServerConf) (request : HttpRequest) (w : World) :
    (processGet sc request w = processGetWith (processScript sc) sendFile sc request w ∧
      processPost sc request w = processPostWith (processScript sc) request w) ∧
    match decision request.url with
    | .refused status =>
      processGetWith script send sc request w = (0, (httpSendError status w).2) ∧
        processPostWith script request w = (0, (httpSendError status w).2)
    | .script path =>
      ScriptPath path ∧
        (∀ fd,
          (getMimeType path = ascii "text/x-python" ∧ childExec path fd = .python (fullPath fd)) ∨
          (getMimeType path = ascii "text/x-php" ∧ childExec path fd = .php (fullPath fd))) ∧
        (∀ script' send',
          script' ⟨(urlQuery request.url).length, some (urlQuery request.url)⟩ path =
            script ⟨(urlQuery request.url).length, some (urlQuery request.url)⟩ path →
          processGetWith script' send' sc request w = processGetWith script send sc request w) ∧
        (∀ script', script' request.body path = script request.body path →
          processPostWith script' request w = processPostWith script request w)
    | .file path =>
      ¬ ScriptPath path ∧
        (∀ script' send', send' path = send path →
          processGetWith script' send' sc request w = processGetWith script send sc request w) ∧
        processPostWith script request w = (0, w) := by
  refine ⟨⟨processGet_eq_with sc request w, processPost_eq_with sc request w⟩, ?_⟩
  simp only [processGetWith_eq, processPostWith_eq]
  cases hdec : decision request.url with
  | refused status => exact ⟨rfl, rfl⟩
  | script path =>
    have hpath := scriptPath_of_decision.1 hdec
    refine ⟨hpath, fun fd => scriptPath_cases hpath fd, fun script' send' h => ?_,
      fun script' h => ?_⟩
    · simp only [h]
    · simp only [h]
  | file path =>
    exact ⟨scriptPath_of_decision.2 hdec,
      fun script' send' h => serveFileWith_congr sc h w, rfl⟩

/-! ## Two worlds that differ in what was written to a script -/

/-- The same answers to come but for `write`, and the same calls made but for `write`. -/
structure Alike (w w' : World) : Prop where
  env : ∃ writes, w'.env = { w.env with write := writes }
  calls : w'.trace.filter (fun e => !e.isWrite) = w.trace.filter (fun e => !e.isWrite)

namespace Alike

variable {w w₁ w₂ : World}

theorem refl (w : World) : Alike w w := ⟨⟨w.env.write, rfl⟩, rfl⟩

theorem symm (h : Alike w w₁) : Alike w₁ w := by
  obtain ⟨⟨writes, henv⟩, hcalls⟩ := h
  exact ⟨⟨w.env.write, by rw [henv]⟩, hcalls.symm⟩

theorem trans (h : Alike w w₁) (h' : Alike w₁ w₂) : Alike w w₂ := by
  obtain ⟨⟨writes, henv⟩, hcalls⟩ := h
  obtain ⟨⟨writes', henv'⟩, hcalls'⟩ := h'
  exact ⟨⟨writes', by rw [henv', henv]⟩, hcalls'.trans hcalls⟩

theorem log (h : Alike w w₁) (e : Event) : Alike (w.log e) (w₁.log e) := by
  obtain ⟨henv, hcalls⟩ := h
  exact ⟨henv, by simp only [World.log, List.filter_append, hcalls]⟩

theorem close (h : Alike w w₁) (fd : ℕ) : Alike (w.close fd) (w₁.close fd) := h.log _

end Alike

/-- What is written does not show in anything else. -/
theorem writeArgs_alike (fd : ℕ) (args : Option Bytes) (fuel left : ℕ) (w : World) :
    Alike w (writeArgs fd args fuel left w) := by
  obtain ⟨writes, henv, -⟩ := writeArgs_spec fd args fuel left w
  obtain ⟨es, hes, hwrite⟩ := writeArgs_adds fd args fuel left w
  refine ⟨⟨writes, henv⟩, ?_⟩
  have hnone : es.filter (fun e => !e.isWrite) = [] := by
    rw [List.filter_eq_nil_iff]
    intro e he
    simp [hwrite e he]
  rw [hes, List.filter_append, hnone, List.append_nil]

theorem tcpSend_respects (buf : Bytes) : Respects Alike (tcpSend buf) := by
  rintro ⟨env, calls⟩ ⟨_, calls'⟩ ⟨⟨writes, rfl⟩, hcalls⟩
  have hnext : Alike ⟨{ env with send := tail env.send }, calls⟩
      ⟨{ env with send := tail env.send, write := writes }, calls'⟩ := ⟨⟨writes, rfl⟩, hcalls⟩
  simp only [tcpSend, tcpShutdown]
  cases env.send 0 with
  | all => exact ⟨rfl, hnext.log _⟩
  | some n => exact ⟨rfl, hnext.log _⟩
  | fail e =>
    cases e with
    | epipe => exact ⟨rfl, (hnext.log _).log _⟩
    | eacces | eloop | enoent | eagain | other => exact ⟨rfl, hnext.log _⟩

theorem strftime_respects : Respects Alike strftime := by
  rintro ⟨env, calls⟩ ⟨_, calls'⟩ ⟨⟨writes, rfl⟩, hcalls⟩
  exact ⟨rfl, ⟨writes, rfl⟩, hcalls⟩

theorem httpSendError_respects (status : HttpStatus) : Respects Alike (httpSendError status) :=
  (tcpSend_respects (errorHeaders status)).bind (g := fun ret w =>
    if ret < 0 then (-1, w) else (0, (tcpSend (errorBody status) w).2)) fun ret =>
    .ite (ret < 0) (.pure (-1)) ((tcpSend_respects (errorBody status)).bind
      (g := fun _ w => (0, w)) fun _ => .pure 0)

theorem readOutput_respects (fd fuel : ℕ) (out : Bytes) :
    Respects Alike (readOutput fd fuel out) := by
  induction fuel generalizing out with
  | zero => exact .pure none
  | succ fuel ih =>
    rintro ⟨env, calls⟩ ⟨_, calls'⟩ ⟨⟨writes, rfl⟩, hcalls⟩
    have hnext : Alike ⟨{ env with read := tail env.read }, calls⟩
        ⟨{ env with read := tail env.read, write := writes }, calls'⟩ := ⟨⟨writes, rfl⟩, hcalls⟩
    simp only [readOutput]
    split_ifs
    · exact ⟨rfl, ⟨writes, rfl⟩, hcalls⟩
    · cases env.read 0 with
      | none => exact ⟨rfl, hnext⟩
      | some p => exact ih _ _ _ (hnext.log _)

theorem sendScriptOutput_respects (sc : ServerConf) (out : Bytes) :
    Respects Alike (sendScriptOutput sc out) := by
  intro w w' h
  obtain ⟨hdate, hnext⟩ := strftime_respects w w' h
  simp only [sendScriptOutput, hdate]
  cases (strftime w').1 with
  | none => exact ⟨rfl, (httpSendError_respects .internalError _ _ hnext).2⟩
  | some date =>
    simp only
    cases serializeResponse (scriptResponse sc date out.length) maxBuffr with
    | none => exact ⟨rfl, (httpSendError_respects .internalError _ _ hnext).2⟩
    | some buffer =>
      obtain ⟨hret, hheader⟩ := tcpSend_respects buffer _ _ hnext
      obtain ⟨hret', hbody⟩ := tcpSend_respects out _ _ hheader
      simp only [hret, hret']
      split_ifs
      · exact ⟨rfl, hheader⟩
      · exact ⟨rfl, hbody⟩
      · exact ⟨rfl, hbody⟩

theorem finishScript_respects (sc : ServerConf) (inpipe outpipe : ℕ × ℕ) (pid : ℕ) :
    Respects Alike (finishScript sc inpipe outpipe pid) := by
  have hread : Respects Alike fun w =>
      match (readOutput outpipe.1 (maxBuffr + 1) [] w).1 with
      | none => (-1, ((readOutput outpipe.1 (maxBuffr + 1) [] w).2.close outpipe.1).log
          (.waitpid pid))
      | some out => sendScriptOutput sc out
          (((readOutput outpipe.1 (maxBuffr + 1) [] w).2.close outpipe.1).log (.waitpid pid)) := by
    refine (readOutput_respects outpipe.1 (maxBuffr + 1) []).bind (g := fun out w =>
      match out with
      | none => (-1, (w.close outpipe.1).log (.waitpid pid))
      | some out => sendScriptOutput sc out ((w.close outpipe.1).log (.waitpid pid)))
      fun out => ?_
    cases out with
    | none => exact (Respects.pure (-1)).comp fun w w' h => (h.close outpipe.1).log (.waitpid pid)
    | some out =>
      exact (sendScriptOutput_respects sc out).comp fun w w' h =>
        (h.close outpipe.1).log (.waitpid pid)
  exact hread.comp (k := fun w => w.close inpipe.2) fun w w' h => h.close inpipe.2

/-- **Two runs of a script with different arguments** differ in what is written to it. -/
theorem runScript_same (sc : ServerConf) (args args' : Body) (path : Bytes) (w : World) :
    Same Alike (runScript sc args path w) (runScript sc args' path w) := by
  unfold runScript
  rcases openSafe path w with ⟨_, w₁⟩
  simp only
  rcases pipe w₁ with ⟨_ | inpipe, w₂⟩
  · exact ⟨rfl, .refl _⟩
  · simp only
    rcases pipe w₂ with ⟨_ | outpipe, w₃⟩
    · exact ⟨rfl, .refl _⟩
    · simp only
      rcases fork w₃ with ⟨_ | pid, w₄⟩
      · exact ⟨rfl, .refl _⟩
      · exact finishScript_respects sc inpipe outpipe pid _ _
          ((writeArgs_alike _ _ _ _ _).symm.trans (writeArgs_alike _ _ _ _ _))

theorem processScript_same (sc : ServerConf) (args args' : Body) (path : Bytes) (w : World) :
    Same Alike (processScript sc args path w) (processScript sc args' path w) := by
  unfold processScript
  rcases getFileExists path w with ⟨ret, w₁⟩
  simp only
  split_ifs
  · exact ⟨rfl, .refl _⟩
  · exact ⟨rfl, .refl _⟩
  · exact ⟨rfl, .refl _⟩
  · exact runScript_same sc args args' path w₁

/-! ## The query and the decision -/

/-- The filter reads a path, a `?` and a query as the path with the `?` and as the query. -/
theorem checkPathTraversal_append {p : Bytes} (hp : 63 ∉ p) (q : Bytes) :
    checkPathTraversal (p ++ 63 :: q) =
      (checkPathTraversal (p ++ [63]) || checkPathTraversal q) := by
  match p with
  | [] =>
    match q with
    | [] => rfl
    | a :: q => rfl
  | [a] =>
    have hrest : checkPathTraversal (63 :: q) = checkPathTraversal q := by
      match q with
      | [] => rfl
      | b :: q => rfl
    simp only [List.cons_append, List.nil_append, checkPathTraversal, hrest]
    split_ifs <;> rfl
  | a :: b :: p =>
    have ih := checkPathTraversal_append (p := b :: p)
      (fun h => hp (List.mem_cons_of_mem a h)) q
    simp only [List.cons_append, checkPathTraversal]
    split_ifs
    · rfl
    · rfl
    · rfl
    · exact ih

theorem decision_append {p : Bytes} (hp : 63 ∉ p) (q : Bytes) :
    decision (p ++ 63 :: q) =
      if checkPathTraversal (p ++ [63]) = true ∨ checkPathTraversal q = true then
        .refused .forbidden
      else pathDecision p := by
  have hfilter : checkPathTraversal (p ++ 63 :: q) = true ↔
      checkPathTraversal (p ++ [63]) = true ∨ checkPathTraversal q = true := by
    rw [checkPathTraversal_append hp, Bool.or_eq_true]
  unfold decision
  rw [(urlPath_urlQuery_append hp q).1]
  by_cases h : checkPathTraversal (p ++ 63 :: q) = true
  · rw [if_pos h, if_pos (hfilter.mp h)]
  · rw [if_neg h, if_neg (mt hfilter.mpr h)]

/-- Only the filter answers that a URL is forbidden. -/
theorem pathDecision_ne_forbidden (p : Bytes) : pathDecision p ≠ .refused .forbidden := by
  unfold pathDecision
  cases buildPath p with
  | none => simp
  | some path =>
    simp only
    split_ifs <;> simp

/-- **Two queries select the same resource.**  The handlers decide the same; whatever the system
calls answer, `process_get` returns the same and makes the same calls, but for those that write to
the script, and `process_post`, which does not hand the query on, is the same altogether. -/
structure SameResource (p q₁ q₂ : Bytes) : Prop where
  decided : decision (p ++ 63 :: q₁) = decision (p ++ 63 :: q₂)
  get : ∀ (sc : ServerConf) (request : HttpRequest) (w : World),
    Same Alike (processGet sc { request with url := p ++ 63 :: q₁ } w)
      (processGet sc { request with url := p ++ 63 :: q₂ } w)
  post : ∀ (sc : ServerConf) (request : HttpRequest) (w : World),
    processPost sc { request with url := p ++ 63 :: q₁ } w =
      processPost sc { request with url := p ++ 63 :: q₂ } w

/-- The same decision is enough. -/
theorem SameResource.of_decided {p q₁ q₂ : Bytes}
    (h : decision (p ++ 63 :: q₁) = decision (p ++ 63 :: q₂)) : SameResource p q₁ q₂ := by
  refine ⟨h, fun sc request w => ?_, fun sc request w => ?_⟩
  · simp only [processGet_eq_with, processGetWith_eq, h]
    cases decision (p ++ 63 :: q₂) with
    | refused status => exact ⟨rfl, .refl _⟩
    | file path => exact ⟨rfl, .refl _⟩
    | script path =>
      obtain ⟨hret, hworld⟩ := processScript_same sc
        ⟨(urlQuery (p ++ 63 :: q₁)).length, some (urlQuery (p ++ 63 :: q₁))⟩
        ⟨(urlQuery (p ++ 63 :: q₂)).length, some (urlQuery (p ++ 63 :: q₂))⟩ path w
      simp only [hret]
      split_ifs
      · exact ⟨rfl, hworld⟩
      · exact ⟨rfl, hworld⟩
  · simp only [processPost_eq_with, processPostWith_eq, h]

/-- **The query has no part in the decision exactly up to the filter**: where the path is not
refused by itself, the filter has to say the same of the two queries. -/
theorem sameResource_iff {p : Bytes} (hp : 63 ∉ p) (q₁ q₂ : Bytes) :
    SameResource p q₁ q₂ ↔
      checkPathTraversal (p ++ [63]) = true ∨ checkPathTraversal q₁ = checkPathTraversal q₂ := by
  have hiff : SameResource p q₁ q₂ ↔ decision (p ++ 63 :: q₁) = decision (p ++ 63 :: q₂) :=
    ⟨fun h => h.decided, .of_decided⟩
  rw [hiff, decision_append hp, decision_append hp]
  cases checkPathTraversal (p ++ [63]) with
  | true => simp
  | false =>
    have hne := pathDecision_ne_forbidden p
    cases checkPathTraversal q₁ <;> cases checkPathTraversal q₂ <;> simp [hne, hne.symm]

/-- Two queries for one script, neither of which the filter looks at twice. -/
theorem sameResource_hello : 63 ∉ ascii "/cgi-bin/hello.py" ∧
    SameResource (ascii "/cgi-bin/hello.py") (ascii "u=x") (ascii "u=y?z") :=
  ⟨by decide, (sameResource_iff (by decide) _ _).mpr (.inr (by decide))⟩

/-- **A query with a URL in it.**  The script is run for one query and forbidden for the other. -/
theorem embeddedUrl_not_sameResource :
    63 ∉ ascii "/cgi-bin/hello.py" ∧
      decision (ascii "/cgi-bin/hello.py?u=x") = .script (ascii "/cgi-bin/hello.py") ∧
      decision (ascii "/cgi-bin/hello.py?u=http://x") = .refused .forbidden ∧
      ¬ SameResource (ascii "/cgi-bin/hello.py") (ascii "u=http://x") (ascii "u=x") := by
  have hrun : decision (ascii "/cgi-bin/hello.py?u=x") = .script (ascii "/cgi-bin/hello.py") := by
    decide +kernel
  have hforbidden : decision (ascii "/cgi-bin/hello.py?u=http://x") = .refused .forbidden := by
    decide +kernel
  refine ⟨by decide, hrun, hforbidden, fun h => ?_⟩
  exact absurd (hforbidden.symm.trans (h.decided.trans hrun)) (by simp)

end BareHttp
