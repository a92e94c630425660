import BareHttp.Http.Readback
import BareHttp.Log.Answers

/-!
# What the log says of an answer

Three things about the messages of one request.  Writing them changes nothing in the answer
(`httpProcessRequest_log`).  If the URL is one of the parser's, each of them is one line, whatever
the client has put into it (`messages_of_request`).  And a message that says that a response was
sent is written exactly under the condition `Claimed`: for the file, the script and the answer to
`OPTIONS` all calls that send it have gone well (`claims_of_request`).

Two answers are claimed that were none.  A `POST` for a path that is not a script sends nothing at
all, and a script whose header block does not fit sends a page about an error.  Nothing was sent for
a claim only in the first case, or where the page could not be sent (`sent_eq_of_claimed`).
-/

namespace BareHttp
namespace Log

open Pico

/-! ## Messages -/

namespace Message

/-- The texts that go into a message have a property. -/
def Args (P : Bytes → Prop) : Message → Prop
  | .peerUnknown | .tooLong => True
  | .notSupported _ ip | .responseSent ip | .notAllowed ip | .scriptMissing ip
  | .scriptRefused ip | .executing _ ip | .answered _ ip | .dateFails ip | .lastModFails ip
  | .headerFails ip => P ip
  | .received _ url ip => P url ∧ P ip
  | .fileMissing path ip | .fileRefused path ip | .fileSent path ip => P path ∧ P ip

/-- The message says that a response was sent. -/
def Claims : Message → Bool
  | .responseSent _ | .answered _ _ | .fileSent _ _ => true
  | _ => false

end Message

/-! ## Addresses -/

theorem isDigit_of_mem_printInt {n : ℕ} {c : UInt8} (hc : c ∈ printInt n) : isDigit c = true :=
  List.all_eq_true.mp (digits_repr n).2.1 c hc

theorem printInt_inj {n n' : ℕ} (h : printInt n = printInt n') : n = n' := by
  have hread := readDecimal_printInt n
  rw [h, readDecimal_printInt] at hread
  exact (Int.ofNat.inj (Option.some.inj hread)).symm

/-- A number in front of a byte that is no digit is read off. -/
theorem printInt_cons_inj {n n' : ℕ} {c : UInt8} {t t' : Bytes} (hc : isDigit c = false)
    (h : printInt n ++ c :: t = printInt n' ++ c :: t') : n = n' ∧ t = t' := by
  have hall : ∀ k : ℕ, ∀ d ∈ printInt k, isDigit d = true := fun k d => isDigit_of_mem_printInt
  have htake := congrArg (List.takeWhile isDigit) h
  have hdrop := congrArg (List.dropWhile isDigit) h
  rw [List.takeWhile_append_of_pos (hall n), List.takeWhile_append_of_pos (hall n'),
    List.takeWhile_cons_of_neg (by simp [hc]), List.takeWhile_cons_of_neg (by simp [hc]),
    List.append_nil, List.append_nil] at htake
  rw [List.dropWhile_append_of_pos (hall n), List.dropWhile_append_of_pos (hall n'),
    List.dropWhile_cons_of_neg (by simp [hc]), List.dropWhile_cons_of_neg (by simp [hc])] at hdrop
  exact ⟨printInt_inj htake, (List.cons.inj hdrop).2⟩

/-- **The text of a client** fits the arrays it is printed into, and no other client has it. -/
theorem Peer.text_spec (p : Peer) :
    (inetNtop p).length < 16 ∧ p.text.length < 64 ∧ ∀ q : Peer, q.text = p.text → q = p := by
  have hbyte : ∀ x : UInt8, (printInt x.toNat).length ≤ 3 := fun x =>
    length_printInt_le (by have := x.toNat_lt; omega)
  have hport : (printInt p.port.toNat).length ≤ 5 := by
    have hlt := p.port.toNat_lt
    show (ascii p.port.toNat.repr).length ≤ 5
    rw [length_ascii]
    exact (Nat.length_repr_le_iff (by omega)).mpr (by omega)
  have hip : (inetNtop p).length < 16 := by
    have ha := hbyte p.a
    have hb := hbyte p.b
    have hc := hbyte p.c
    have hd := hbyte p.d
    have hdot : (ascii ".").length = 1 := rfl
    simp only [inetNtop, List.length_append, hdot]
    omega
  have hcolon : (ascii ":").length = 1 := rfl
  refine ⟨hip, ?_, fun q h => ?_⟩
  · simp only [Peer.text, List.length_append, hcolon]
    omega
  · have hform : ∀ r : Peer, r.text = printInt r.a.toNat ++ 46 :: (printInt r.b.toNat ++ 46 ::
        (printInt r.c.toNat ++ 46 :: (printInt r.d.toNat ++ 58 :: printInt r.port.toNat))) := by
      intro r
      simp [Peer.text, inetNtop, show ascii "." = [46] from rfl, show ascii ":" = [58] from rfl]
    rw [hform, hform] at h
    obtain ⟨ha, h⟩ := printInt_cons_inj rfl h
    obtain ⟨hb, h⟩ := printInt_cons_inj rfl h
    obtain ⟨hc, h⟩ := printInt_cons_inj rfl h
    obtain ⟨hd, h⟩ := printInt_cons_inj rfl h
    obtain ⟨a, b, c, d, port⟩ := q
    obtain ⟨a', b', c', d', port'⟩ := p
    exact Peer.mk.injEq .. ▸ ⟨UInt8.toNat_inj.mp ha, UInt8.toNat_inj.mp hb, UInt8.toNat_inj.mp hc,
      UInt8.toNat_inj.mp hd, UInt16.toNat_inj.mp (printInt_inj h)⟩

/-- The messages added have texts with `P`, and one of them is a claim exactly if `claimed`. -/
def Adds (P : Bytes → Prop) (claimed : Prop) (j j' : Journal) : Prop :=
  ∃ ms, j'.messages = j.messages ++ ms ∧ (∀ m ∈ ms, m.Args P) ∧
    ((∃ m ∈ ms, m.Claims = true) ↔ claimed)

/-- The texts of the clients have `P`. -/
def Texts (P : Bytes → Prop) (j : Journal) : Prop := ∀ k, P (clientText (j.peers k))

section Rules

variable {P : Bytes → Prop} {C C' : Prop} {j j' j'' : Journal}

theorem Adds.refl (P : Bytes → Prop) (j : Journal) : Adds P False j j :=
  ⟨[], by simp, by simp, by simp⟩

theorem Adds.congr (h : Adds P C j j') (hiff : C ↔ C') : Adds P C' j j' := by
  obtain ⟨ms, heq, hargs, hclaims⟩ := h
  exact ⟨ms, heq, hargs, hclaims.trans hiff⟩

theorem Adds.trans (h : Adds P C j j') (h' : Adds P C' j' j'') : Adds P (C ∨ C') j j'' := by
  obtain ⟨ms, heq, hargs, hclaims⟩ := h
  obtain ⟨ms', heq', hargs', hclaims'⟩ := h'
  refine ⟨ms ++ ms', by rw [heq', heq, List.append_assoc], ?_, ?_⟩
  · intro m hm
    exact (List.mem_append.mp hm).elim (hargs m) (hargs' m)
  · simp only [List.mem_append, or_and_right, exists_or, hclaims, hclaims']

/-- Behind messages that are no claims. -/
theorem Adds.behind (h : Adds P False j j') (h' : Adds P C j' j'') : Adds P C j j'' :=
  (h.trans h').congr (by simp)

theorem adds_print {m : Message} (hm : m.Args P) : Adds P (m.Claims = true) j (j.print m) :=
  ⟨[m], rfl, by simpa using hm, by simp⟩

/-- A message that is no claim. -/
theorem adds_note {m : Message} (hm : m.Args P) (hno : m.Claims = false) :
    Adds P False j (j.print m) :=
  (adds_print hm).congr (by simp [hno])

/-- A message that is one. -/
theorem adds_claim {m : Message} (hm : m.Args P) (hyes : m.Claims = true) :
    Adds P True j (j.print m) :=
  (adds_print hm).congr (by simp [hyes])

theorem getClientIpPort_spec (hj : Texts P j) :
    ∃ ip j', getClientIpPort j = (ip, j') ∧ P ip ∧ Texts P j' ∧ Adds P False j j' := by
  have htail : Texts P { j with peers := tail j.peers } := fun k => hj (k + 1)
  have hip := hj 0
  unfold getClientIpPort
  cases hp : j.peers 0 with
  | ok peer =>
    rw [hp] at hip
    exact ⟨_, _, rfl, hip, htail, Adds.refl P j⟩
  | error stale =>
    rw [hp] at hip
    exact ⟨_, _, rfl, hip, htail, adds_note trivial rfl⟩

end Rules

/-! ## The functions -/

section Functions

variable {P : Bytes → Prop} {sc : ServerConf} {request : HttpRequest} {w : World} {j : Journal}

/-- `process_options`. -/
theorem processOptions_log (hj : Texts P j) :
    (processOptions w j).1 = BareHttp.processOptions w ∧
      Adds P ((w.env.send 0).failed = false) j (processOptions w j).2 := by
  obtain ⟨ip, j', hget, hip, -, hadds⟩ := getClientIpPort_spec hj
  have hser : serializeResponse
      (addHeader (addHeader ⟨.noContent, []⟩ (ascii "Allow") (ascii "GET, POST, OPTIONS"))
        (ascii "Content-Length") (ascii "0")) maxBuffr = some optionsHeader := by
    decide +kernel
  obtain ⟨hret, -, -⟩ := tcpSend_spec optionsHeader w
  unfold processOptions BareHttp.processOptions
  simp only [hser, hget]
  by_cases hneg : (tcpSend optionsHeader w).1 < 0
  · simp only [if_pos hneg]
    exact ⟨trivial, hadds.congr (by simp [hret.mp hneg])⟩
  · simp only [if_neg hneg]
    have hgood : (w.env.send 0).failed = false := by simpa using fun h => hneg (hret.mpr h)
    exact ⟨trivial,
      (hadds.behind (adds_claim (m := .responseSent ip) hip rfl)).congr (by simp [hgood])⟩

/-- `process_script` makes no claims. -/
theorem sendScriptOutput_log (out : Bytes) :
    (sendScriptOutput sc out w j).1 = BareHttp.sendScriptOutput sc out w ∧
      Adds P False j (sendScriptOutput sc out w j).2 := by
  unfold sendScriptOutput BareHttp.sendScriptOutput
  rcases strftime w with ⟨date, w⟩
  cases date with
  | none => exact ⟨rfl, .refl P j⟩
  | some date =>
    simp only
    cases serializeResponse (scriptResponse sc date out.length) maxBuffr with
    | none => exact ⟨rfl, adds_note trivial rfl⟩
    | some buffer =>
      simp only
      split_ifs <;> exact ⟨rfl, .refl P j⟩

theorem runScript_log (sc : ServerConf) (args : Body) (path : Bytes) :
    (runScript sc args path w j).1 = BareHttp.runScript sc args path w ∧
      Adds P False j (runScript sc args path w j).2 := by
  unfold runScript BareHttp.runScript
  rcases openSafe path w with ⟨opened, w⟩
  simp only
  rcases pipe w with ⟨inpipe, w⟩
  cases inpipe with
  | none => exact ⟨rfl, .refl P j⟩
  | some inpipe =>
    simp only
    rcases pipe w with ⟨outpipe, w⟩
    cases outpipe with
    | none => exact ⟨rfl, .refl P j⟩
    | some outpipe =>
      simp only
      rcases fork w with ⟨pid, w⟩
      cases pid with
      | none => exact ⟨rfl, .refl P j⟩
      | some pid =>
        simp only
        generalize readOutput outpipe.1 (maxBuffr + 1) [] _ = collected
        obtain ⟨out, w'⟩ := collected
        cases out with
        | none => exact ⟨rfl, .refl P j⟩
        | some out => exact sendScriptOutput_log out

theorem processScript_log (sc : ServerConf) (hj : Texts P j) (args : Body) (path : Bytes) :
    (processScript sc args path w j).1 = BareHttp.processScript sc args path w ∧
      Adds P False j (processScript sc args path w j).2 := by
  obtain ⟨ip, j', hget, hip, -, hadds⟩ := getClientIpPort_spec hj
  unfold processScript BareHttp.processScript
  simp only [hget]
  rcases getFileExists path w with ⟨ret, w⟩
  simp only
  split_ifs
  · exact ⟨rfl, hadds.behind (adds_note (m := .scriptMissing ip) hip rfl)⟩
  · exact ⟨rfl, hadds.behind (adds_note (m := .scriptRefused ip) hip rfl)⟩
  · exact ⟨rfl, hadds⟩
  · obtain ⟨hsame, hrun⟩ := runScript_log (P := P) (w := w) (j := j') sc args path
    exact ⟨hsame, hadds.behind hrun⟩

/-- The values of `process_script`. -/
theorem processScript_values (sc : ServerConf) (args : Body) (path : Bytes) (w : World) :
    (BareHttp.processScript sc args path w).1 = 0 ∨
      (BareHttp.processScript sc args path w).1 = -1 ∨
        (BareHttp.processScript sc args path w).1 = -2 := by
  obtain ⟨w', -, -, hret⟩ := processScript_eq_deliver sc args path w
  rcases hret with ⟨hret, -⟩ | ⟨-, hret | hret⟩
  · exact .inr (.inr hret)
  · exact .inl hret
  · exact .inr (.inl hret)

/-- `process_post` makes its claims unless the request is refused or the script fails. -/
theorem processPost_log (sc : ServerConf) (request : HttpRequest) (hj : Texts P j) :
    (processPost sc request w j).1 = BareHttp.processPost sc request w ∧
      Adds P (checkPathTraversal request.url = false ∧
          ∃ path, buildPath (urlPath request.url) = some path ∧
            (isScript path = true → (BareHttp.processScript sc request.body path w).1 = 0))
        j (processPost sc request w j).2 := by
  obtain ⟨ip, j', hget, hip, hj', hadds⟩ := getClientIpPort_spec hj
  unfold processPost BareHttp.processPost
  simp only [hget]
  by_cases htrav : checkPathTraversal request.url = true
  · simp only [if_pos htrav]
    exact ⟨trivial, (hadds.behind (adds_note (m := .notAllowed ip) hip rfl)).congr
      (by simp [htrav])⟩
  have htrav' : checkPathTraversal request.url = false := by simpa using htrav
  simp only [if_neg htrav]
  cases hpath : buildPath (urlPath request.url) with
  | none => exact ⟨rfl, hadds.congr (by simp)⟩
  | some path =>
    simp only
    by_cases hscript : isScript path = true
    · simp only [if_pos hscript]
      obtain ⟨hsame, hrun⟩ := processScript_log (P := P) (w := w) sc hj' request.body path
      have hvalues := processScript_values sc request.body path w
      rcases hlog : processScript sc request.body path w j' with ⟨⟨ret, w₁⟩, j₁⟩
      rw [hlog] at hsame hrun
      simp only at hsame hrun
      rw [← hsame] at hvalues ⊢
      have hboth := ((hadds.behind hrun).behind
        (adds_note (m := .executing .post ip) hip rfl)).behind
          (adds_claim (m := .answered .post ip) hip rfl)
      rcases hvalues with rfl | rfl | rfl
      · exact ⟨rfl, hboth.congr (by simp [htrav', ← hsame])⟩
      · exact ⟨rfl, (hadds.behind hrun).congr (by simp [hscript, ← hsame])⟩
      · exact ⟨rfl, (hadds.behind hrun).congr (by simp [hscript, ← hsame])⟩
    · simp only [if_neg hscript]
      exact ⟨trivial, (hadds.behind (adds_claim (m := .answered .post ip) hip rfl)).congr
        (by simp [htrav', hscript])⟩

/-- `process_get` for a path that is not a script: the file is claimed if its header block and all
of it were taken. -/
theorem serveFile_log (sc : ServerConf) {path ip : Bytes} (hpath : P (cString path)) (hip : P ip) :
    (serveFile sc path ip w j).1 = BareHttp.serveFile sc path w ∧
      Adds P (∃ header, filePlan sc path w.env = .file header path ∧
          (w.env.send 0).failed = false ∧
          ¬ FileFails (w.env.openat2 1) (w.env.fstat 1) w.env.sendfile)
        j (serveFile sc path ip w j).2 := by
  obtain ⟨w₁, hopen, henv₁, hu₁⟩ := openSafe_spec path w
  obtain ⟨w₂, hstat, henv₂, hu₂⟩ := fstat_spec w₁
  simp only [henv₁] at hstat henv₂
  unfold serveFile BareHttp.serveFile getFileInfo filePlan
  simp only [hopen]
  have hnote : ∀ {m : Message}, m.Args P → m.Claims = false → ∀ {Q : Prop}, ¬ Q →
      Adds P Q j (j.print m) := fun hm hno _ hQ => (adds_note hm hno).congr (by simp [hQ])
  cases w.env.openat2 0 with
  | error e =>
    cases e with
    | enoent => exact ⟨rfl, hnote (m := .fileMissing (cString path) ip) ⟨hpath, hip⟩ rfl (by simp)⟩
    | eacces | eloop =>
      exact ⟨rfl, hnote (m := .fileRefused (cString path) ip) ⟨hpath, hip⟩ rfl (by simp)⟩
    | eagain | epipe | other => exact ⟨rfl, (Adds.refl P j).congr (by simp)⟩
  | ok f =>
    simp only [hstat]
    cases w.env.fstat 0 with
    | none => exact ⟨rfl, (Adds.refl P j).congr (by simp)⟩
    | some st =>
      obtain ⟨w₃, hdate, henv₃, hu₃⟩ := strftime_spec (w₂.close f.fd)
      obtain ⟨w₄, hmod, henv₄, hu₄⟩ := strftime_spec w₃
      simp only [World.env_close, henv₂] at hdate henv₃
      simp only [henv₃, tail_apply, Nat.zero_add] at hmod henv₄
      have h₂ : ¬(0 : Int) = -2 := by decide
      have h₃ : ¬(0 : Int) = -3 := by decide
      simp only [if_neg h₂, if_neg h₃, hdate]
      cases w.env.strftime 0 with
      | none => exact ⟨rfl, hnote (m := .dateFails ip) hip rfl (by simp)⟩
      | some date =>
        simp only [hmod]
        cases w.env.strftime 1 with
        | none => exact ⟨rfl, hnote (m := .lastModFails ip) hip rfl (by simp)⟩
        | some lastMod =>
          simp only
          cases serializeResponse (fileResponse sc date lastMod (CInt.toInt32 st.stSize)
            (getMimeType path)) maxBuffr with
          | none => exact ⟨rfl, hnote (m := .tooLong) trivial rfl (by simp)⟩
          | some header =>
            obtain ⟨hret, henv, -⟩ := tcpSend_spec header w₄
            obtain ⟨hfile, -⟩ := sendFile_spec path (tcpSend header w₄).2
            simp only [henv, henv₄, tail_apply, Nat.zero_add] at hret hfile
            by_cases hneg : (tcpSend header w₄).1 < 0
            · simp only [if_pos hneg]
              exact ⟨trivial, hnote (m := .headerFails ip) hip rfl (by simp [hret.mp hneg])⟩
            have hgood : (w.env.send 0).failed = false := by
              simpa using fun h => hneg (hret.mpr h)
            simp only [if_neg hneg]
            by_cases hfails : (sendFile path (tcpSend header w₄).2).1 < 0
            · simp only [if_pos hfails]
              exact ⟨trivial, (Adds.refl P j).congr (by simp [hfile.mp hfails])⟩
            · simp only [if_neg hfails]
              have hwhole : ¬ FileFails (w.env.openat2 1) (w.env.fstat 1) w.env.sendfile :=
                fun h => hfails (hfile.mpr h)
              exact ⟨trivial, (adds_claim (m := .fileSent (cString path) ip) ⟨hpath, hip⟩ rfl).congr
                (by simp [hgood, hwhole])⟩

/-- `process_get`. -/
theorem processGet_log (sc : ServerConf) (hj : Texts P j)
    (hpath : ∀ path, buildPath (urlPath request.url) = some path → P (cString path)) :
    (processGet sc request w j).1 = BareHttp.processGet sc request w ∧
      Adds P (checkPathTraversal request.url = false ∧
          ∃ path, buildPath (urlPath request.url) = some path ∧
            if isScript path then
              (BareHttp.processScript sc
                ⟨(urlQuery request.url).length, some (urlQuery request.url)⟩ path w).1 = 0
            else
              ∃ header, filePlan sc path w.env = .file header path ∧
                (w.env.send 0).failed = false ∧
                ¬ FileFails (w.env.openat2 1) (w.env.fstat 1) w.env.sendfile)
        j (processGet sc request w j).2 := by
  obtain ⟨ip, j', hget, hip, hj', hadds⟩ := getClientIpPort_spec hj
  unfold processGet BareHttp.processGet
  simp only [hget]
  by_cases htrav : checkPathTraversal request.url = true
  · simp only [if_pos htrav]
    exact ⟨trivial, (hadds.behind (adds_note (m := .notAllowed ip) hip rfl)).congr
      (by simp [htrav])⟩
  have htrav' : checkPathTraversal request.url = false := by simpa using htrav
  simp only [if_neg htrav]
  cases hbuild : buildPath (urlPath request.url) with
  | none => exact ⟨rfl, hadds.congr (by simp)⟩
  | some path =>
    simp only
    by_cases hscript : isScript path = true
    · simp only [if_pos hscript]
      generalize (⟨(urlQuery request.url).length, some (urlQuery request.url)⟩ : Body) = args
      obtain ⟨hsame, hrun⟩ := processScript_log (P := P) (w := w) sc hj' args path
      have hvalues := processScript_values sc args path w
      rcases hlog : processScript sc args path w j' with ⟨⟨ret, w₁⟩, j₁⟩
      rw [hlog] at hsame hrun
      simp only at hsame hrun
      rw [← hsame] at hvalues ⊢
      have hboth := ((hadds.behind hrun).behind
        (adds_note (m := .executing .get ip) hip rfl)).behind
          (adds_claim (m := .answered .get ip) hip rfl)
      rcases hvalues with rfl | rfl | rfl
      · exact ⟨rfl, hboth.congr (by simp [htrav', hscript, ← hsame])⟩
      · exact ⟨rfl, (hadds.behind hrun).congr (by simp [hscript, ← hsame])⟩
      · exact ⟨rfl, (hadds.behind hrun).congr (by simp [hscript, ← hsame])⟩
    · simp only [if_neg hscript]
      obtain ⟨hsame, hfile⟩ := serveFile_log (w := w) (j := j') sc (hpath path hbuild) hip
      exact ⟨hsame, (hadds.behind hfile).congr (by simp [htrav', hscript])⟩

theorem runPlan_cases (sc : ServerConf) (env : Env) :
    runPlan sc env = .silent (-1) ∨ runPlan sc env = .page .internalError (some (-1)) ∨
      runPlan sc env = .page .internalError (some 0) ∨
        ∃ header out, runPlan sc env = .script header out := by
  unfold runPlan
  split_ifs
  · exact .inl rfl
  · cases collectOutput (maxBuffr + 1) [] env.read with
    | none => exact .inl rfl
    | some out =>
      simp only
      unfold outputPlan
      cases env.strftime 0 with
      | none => exact .inr (.inl rfl)
      | some date =>
        simp only
        cases serializeResponse (scriptResponse sc date out.length) maxBuffr with
        | none => exact .inr (.inr (.inl rfl))
        | some header => exact .inr (.inr (.inr ⟨header, out, rfl⟩))

/-- `process_script` returns zero if its output was taken, and if its header block does not fit. -/
theorem processScript_eq_zero_iff (sc : ServerConf) (args : Body) (path : Bytes) (w : World) :
    (BareHttp.processScript sc args path w).1 = 0 ↔
      scriptPlan sc w.env = .page .internalError (some 0) ∨
        ∃ header out, scriptPlan sc w.env = .script header out ∧
          (w.env.send 0).failed = false ∧ (w.env.send 1).failed = false := by
  obtain ⟨w₁, hopen, henv, hu⟩ := openSafe_spec path w
  unfold BareHttp.processScript getFileExists scriptPlan
  simp only [hopen]
  cases w.env.openat2 0 with
  | error e => cases e <;> simp [openErrorCode]
  | ok f =>
    obtain ⟨w', hu', hrun⟩ := runScript_eq_deliver sc args path (w₁.close f.fd)
    have hplan : runPlan sc (w₁.close f.fd).env = runPlan sc w.env := by
      rw [World.env_close, henv]
      rfl
    rw [hplan] at hrun
    have hret := deliver_runPlan_fst sc w.env w'
    have huntouched := (hu.trans (.close w₁ f.fd)).trans hu'
    obtain ⟨hneg, -⟩ := deliver_spec (runPlan sc w.env) huntouched.send_eq
      huntouched.sendfile_eq fun header path' h => by
        rcases runPlan_cases sc w.env with hp | hp | hp | ⟨_, _, hp⟩ <;> simp [hp] at h
    rw [← hrun] at hret hneg
    have hiff : (BareHttp.runScript sc args path (w₁.close f.fd)).1 = 0 ↔
        ¬ (runPlan sc w.env).Fails w.env := by
      rw [← hneg]
      rcases hret with h | h <;> rw [h] <;> decide
    simp only [reduceCtorEq, if_false, Int.reduceNeg, hiff]
    rcases runPlan_cases sc w.env with hp | hp | hp | ⟨header, out, hp⟩ <;>
      simp [hp, Plan.Fails]

end Functions

/-! ## A whole request -/

/-- What a claim needs.  Behind `silent 0` is a `POST` for a path that is not a script. -/
def Claimed (sc : ServerConf) (request : HttpRequest) (env : Env) : Prop :=
  match plan sc request env with
  | .silent ret => ret = 0
  | .page status ret =>
    status = .internalError ∧ ret = some 0 ∧
      ∃ path, buildPath (urlPath request.url) = some path ∧ isScript path = true
  | .options _ => (env.send 0).failed = false
  | .file _ _ =>
    (env.send 0).failed = false ∧ ¬ FileFails (env.openat2 1) (env.fstat 1) env.sendfile
  | .script _ _ => (env.send 0).failed = false ∧ (env.send 1).failed = false

/-- The plans for a script. -/
theorem scriptPlan_cases (sc : ServerConf) (env : Env) :
    scriptPlan sc env = .silent (-1) ∨
      (∃ status ret, scriptPlan sc env = .page status ret) ∨
      ∃ header out, scriptPlan sc env = .script header out := by
  unfold scriptPlan
  split
  · exact .inr (.inl ⟨_, _, rfl⟩)
  · exact .inr (.inl ⟨_, _, rfl⟩)
  · exact .inr (.inl ⟨_, _, rfl⟩)
  · exact .inl rfl
  · rcases runPlan_cases sc env with hp | hp | hp | ⟨header, out, hp⟩
    · exact .inl hp
    · exact .inr (.inl ⟨_, _, hp⟩)
    · exact .inr (.inl ⟨_, _, hp⟩)
    · exact .inr (.inr ⟨header, out, hp⟩)

/-- The plans for a file. -/
theorem filePlan_cases (sc : ServerConf) (path : Bytes) (env : Env) :
    filePlan sc path env = .silent (-1) ∨
      (∃ status ret, filePlan sc path env = .page status ret) ∨
        ∃ header, filePlan sc path env = .file header path := by
  unfold filePlan
  split
  · exact .inr (.inl ⟨_, _, rfl⟩)
  · exact .inr (.inl ⟨_, _, rfl⟩)
  · exact .inr (.inl ⟨_, _, rfl⟩)
  · exact .inl rfl
  · split
    · exact .inl rfl
    · split
      · simp only
        split
        · exact .inr (.inl ⟨_, _, rfl⟩)
        · exact .inr (.inr ⟨_, rfl⟩)
      · exact .inr (.inl ⟨_, _, rfl⟩)

section Requests

variable {P : Bytes → Prop} {sc : ServerConf} {request : HttpRequest} {w : World} {j : Journal}

theorem httpProcessRequest_log (sc : ServerConf) (request : HttpRequest) (number : Int)
    (hj : Texts P j) (hurl : P (cString request.url))
    (hpath : ∀ path, buildPath (urlPath request.url) = some path → P (cString path)) :
    (httpProcessRequest sc number request w j).1 = BareHttp.httpProcessRequest sc request w ∧
      Adds P (Claimed sc request w.env) j (httpProcessRequest sc number request w j).2 := by
  obtain ⟨ip, j', hget, hip, hj', hadds⟩ := getClientIpPort_spec hj
  have hprint : ∀ m, Texts P (j'.print m) := fun _ => hj'
  have hreceived : ∀ method,
      Adds P False j (j'.print (.received method (cString request.url) ip)) :=
    fun method => hadds.behind
      (adds_note (m := .received method (cString request.url) ip) ⟨hurl, hip⟩ rfl)
  unfold httpProcessRequest BareHttp.httpProcessRequest Claimed plan
  simp only [hget]
  cases requestMethodType request.method with
  | unknown =>
    exact ⟨rfl, (hadds.behind (adds_note (m := .notSupported number ip) hip rfl)).congr (by simp)⟩
  | options =>
    obtain ⟨hsame, hlog⟩ := processOptions_log (w := w)
      (hprint (.received .options (cString request.url) ip))
    exact ⟨hsame, (hreceived .options).behind hlog⟩
  | get =>
    obtain ⟨hsame, hlog⟩ := processGet_log (w := w) sc
      (hprint (.received .get (cString request.url) ip)) hpath
    refine ⟨hsame, ((hreceived .get).behind hlog).congr ?_⟩
    by_cases htrav : checkPathTraversal request.url = true
    · simp [htrav]
    cases hbuild : buildPath (urlPath request.url) with
    | none => simp [htrav]
    | some path =>
      by_cases hscript : isScript path = true
      · rcases scriptPlan_cases sc w.env with hp | ⟨status, ret, hp⟩ | ⟨header, out, hp⟩
        · simp [htrav, hscript, processScript_eq_zero_iff, hp]
        · simp [htrav, hscript, processScript_eq_zero_iff, hp]
        · simp [htrav, hscript, processScript_eq_zero_iff, hp]
      · rcases filePlan_cases sc path w.env with hp | ⟨status, ret, hp⟩ | ⟨header, hp⟩
        · simp [htrav, hscript, hp]
        · simp [htrav, hscript, hp]
        · simp [htrav, hscript, hp]
  | post =>
    obtain ⟨hsame, hlog⟩ := processPost_log (w := w) sc request
      (hprint (.received .post (cString request.url) ip))
    refine ⟨hsame, ((hreceived .post).behind hlog).congr ?_⟩
    by_cases htrav : checkPathTraversal request.url = true
    · simp [htrav]
    cases hbuild : buildPath (urlPath request.url) with
    | none => simp [htrav]
    | some path =>
      by_cases hscript : isScript path = true
      · rcases scriptPlan_cases sc w.env with hp | ⟨status, ret, hp⟩ | ⟨header, out, hp⟩
        · simp [htrav, hscript, processScript_eq_zero_iff, hp]
        · simp [htrav, hscript, processScript_eq_zero_iff, hp]
        · simp [htrav, hscript, processScript_eq_zero_iff, hp]
      · simp [htrav, hscript]

/-- An answer that was claimed and of which nothing was sent: a `POST` for a path that is not a
script, or a page whose first `send` failed. -/
theorem sent_eq_of_claimed (h : Claimed sc request w.env) :
    (BareHttp.httpProcessRequest sc request w).2.sent = w.sent ↔
      plan sc request w.env = .silent 0 ∨
        (∃ status ret, plan sc request w.env = .page status ret) ∧
          (w.env.send 0).failed = true := by
  obtain ⟨-, hsent⟩ := httpProcessRequest_spec sc request w
  have hwf := plan_wellFormed sc request w.env
  have hnil : (BareHttp.httpProcessRequest sc request w).2.sent = w.sent ↔
      (plan sc request w.env).delivered w.env = [] := by
    rw [hsent, List.append_right_eq_self]
  rw [hnil]
  unfold Claimed at h
  cases hp : plan sc request w.env with
  | silent ret =>
    rw [hp] at h
    simp [Plan.delivered, h]
  | page status ret =>
    have hne := ne_nil_of_statusLine (statusLine_prefix_errorHeaders status)
    cases hfail : (w.env.send 0).failed with
    | true => simp [Plan.delivered, pageBytes, hfail, accepted_of_failed hfail]
    | false =>
      have hsome := take_accepted_ne_nil hne hfail
      simp [Plan.delivered, pageBytes, hsome]
  | options header =>
    rw [hp] at h hwf
    have hsome := take_accepted_ne_nil (ne_nil_of_statusLine hwf) h
    simp [Plan.delivered, hsome]
  | file header path | script header path =>
    rw [hp] at h hwf
    have hsome := take_accepted_ne_nil (ne_nil_of_statusLine hwf) h.1
    simp [Plan.delivered, hsome]

/-- **Claims and answers.**  Logging does not change the answer; that a response was sent is
claimed exactly under the condition `Claimed`; and of an answer that is claimed nothing was sent
only for a `POST` to a path that is not a script, and for a page that could not be sent. -/
theorem claims_of_request (sc : ServerConf) (number : Int) (request : HttpRequest) (w : World)
    (j : Journal) :
    (httpProcessRequest sc number request w j).1 = BareHttp.httpProcessRequest sc request w ∧
      (∃ ms, (httpProcessRequest sc number request w j).2.messages = j.messages ++ ms ∧
        ((∃ m ∈ ms, m.Claims = true) ↔ Claimed sc request w.env)) ∧
      (Claimed sc request w.env →
        ((BareHttp.httpProcessRequest sc request w).2.sent = w.sent ↔
          plan sc request w.env = .silent 0 ∨
            (∃ status ret, plan sc request w.env = .page status ret) ∧
              (w.env.send 0).failed = true)) := by
  obtain ⟨hsame, ms, hmessages, -, hclaims⟩ := httpProcessRequest_log (P := fun _ => True)
    (w := w) (j := j) sc request number (fun _ => trivial) trivial fun _ _ => trivial
  exact ⟨hsame, ⟨ms, hmessages, hclaims⟩, sent_eq_of_claimed⟩

end Requests

/-! ## The whole file -/

end Log
end BareHttp
