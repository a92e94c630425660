import BareHttp.Foundation.While
import BareHttp.Http.Framing
import BareHttp.Http.ScriptRun

/-!
# Collecting the output of a script

`process_script` reads the output of a script into an array of `MAX_BUFFR` bytes until the
output ends.  Before each read it tests whether the array is full, and gives up if it is: an
output that fills the array exactly cannot be told from a longer one, since the end of the
output is only seen by another read.

The loop is stated with the array it stores into and the ranges it asks the kernel to fill.
Every range is inside the array (`ends_collectLoop`), and how the reads split the output makes
no difference to what is collected (`Delivers.collectOutput_eq`).
-/

namespace BareHttp

/-! ## The loop -/

/-- What the loop that collects the output changes.  `full` is the return from inside the loop,
and `asked` lists the position and the length that each `read` was given. -/
structure CollectState where
  buffer : ℕ → UInt8
  totalBytes : ℕ
  full : Bool
  asked : List (ℕ × ℕ)
  world : World

/-- The loop of `process_script` that collects the output. -/
def collectLoop (fd : ℕ) : While.Loop CollectState where
  test := fun _ => true
  body := fun s =>
    if maxBuffr ≤ s.totalBytes then .stop { s with full := true }
    else
      let room := maxBuffr - s.totalBytes
      let asked := s.asked ++ [(s.totalBytes, room)]
      let w := { s.world with env := { s.world.env with read := tail s.world.env.read } }
      match s.world.env.read 0 with
      | none => .stop { s with asked := asked, world := w }
      | some (b, bs) =>
        let chunk := (b :: bs).take room
        .next
          { s with
            buffer := Buffer.write s.buffer s.totalBytes chunk
            totalBytes := s.totalBytes + chunk.length
            asked := asked
            world := w.log (.read fd chunk) }

/-- What a run of the loop gives: the output in the array, or nothing if it was full. -/
def CollectState.collected (s : CollectState) : Option Bytes :=
  if s.full then none else some (Buffer.slice s.buffer 0 s.totalBytes)

/-- What holds in front of every round: no range went beyond the array, and the rest of the loop
gives `result`. -/
structure Collecting (fd : ℕ) (result : Option Bytes × World) (s : CollectState) : Prop where
  not_full : s.full = false
  total_le : s.totalBytes ≤ maxBuffr
  asked_le : ∀ r ∈ s.asked, r.1 + r.2 ≤ maxBuffr
  rest : ∃ fuel, maxBuffr < s.totalBytes + fuel ∧
    readOutput fd fuel (Buffer.slice s.buffer 0 s.totalBytes) s.world = result

/-- **The loop ends**: no range it asked for goes beyond the array, and it gives what
`readOutput` gives. -/
theorem ends_collectLoop (fd : ℕ) (buffer : ℕ → UInt8) (w : World) :
    ∃ t, While.Ends (collectLoop fd) ⟨buffer, 0, false, [], w⟩ t ∧
      t.totalBytes ≤ maxBuffr ∧ (∀ r ∈ t.asked, r.1 + r.2 ≤ maxBuffr) ∧
      readOutput fd (maxBuffr + 1) [] w = (t.collected, t.world) := by
  refine While.exists_ends (Collecting fd (readOutput fd (maxBuffr + 1) [] w)) _
    (fun s => maxBuffr - s.totalBytes) (fun s _ htest => absurd htest (by simp [collectLoop])) ?_
    ⟨rfl, Nat.zero_le _, by simp, maxBuffr + 1, by simp, rfl⟩
  rintro ⟨buffer, total, full, asked, w⟩ ⟨hfull, htotal, hasked, fuel, hfuel, hrest⟩ -
  simp only at hfull htotal hasked hfuel hrest
  subst hfull
  obtain ⟨fuel, rfl⟩ := Nat.exists_eq_add_of_lt (show 0 < fuel by omega)
  rw [Nat.zero_add] at hfuel hrest
  have hasked' : ∀ r ∈ asked ++ [(total, maxBuffr - total)], r.1 + r.2 ≤ maxBuffr := by
    intro r hr
    rcases List.mem_append.mp hr with hr | hr
    · exact hasked r hr
    · rw [List.mem_singleton.mp hr]
      simp only
      omega
  simp only [readOutput, Buffer.length_slice] at hrest
  by_cases hge : maxBuffr ≤ total
  · rw [if_pos hge] at hrest
    refine .inl ⟨⟨buffer, total, true, asked, w⟩, ?_, htotal, hasked, hrest.symm⟩
    simp only [collectLoop, if_pos hge]
  · rw [if_neg hge] at hrest
    simp only [collectLoop, if_neg hge]
    cases hread : w.env.read 0 with
    | none =>
      rw [hread] at hrest
      exact .inl ⟨_, rfl, htotal, hasked', hrest.symm⟩
    | some p =>
      rw [hread] at hrest
      have hlen : ((p.1 :: p.2).take (maxBuffr - total)).length ≤ maxBuffr - total :=
        List.length_take_le _ _
      have hpos : 0 < ((p.1 :: p.2).take (maxBuffr - total)).length := by
        simp only [List.length_take, List.length_cons]
        omega
      simp only at hrest ⊢
      generalize (p.1 :: p.2).take (maxBuffr - total) = chunk at *
      refine .inr ⟨_, rfl, ⟨rfl, ?_, hasked', fuel, ?_, ?_⟩, ?_⟩
      · simp only
        omega
      · simp only
        omega
      · simp only [Buffer.slice_write_append]
        exact hrest
      · simp only
        omega

/-! ## How the reads split an output -/

/-- **The reads deliver an output** into `room` bytes: each one takes at least a byte of it and at
most what there is room for, and behind the last byte comes the end.  Where there is no room, no
read is made. -/
inductive Delivers : ℕ → Bytes → (ℕ → Option (UInt8 × Bytes)) → Prop
  | noRoom (o : Bytes) (reads : ℕ → Option (UInt8 × Bytes)) : Delivers 0 o reads
  | finish {room : ℕ} {reads : ℕ → Option (UInt8 × Bytes)} (hend : reads 0 = none) :
      Delivers room [] reads
  | chunk {room : ℕ} {b : UInt8} {bs o : Bytes} {reads : ℕ → Option (UInt8 × Bytes)}
      (hread : reads 0 = some (b, bs)) (hroom : (b :: bs).length ≤ room)
      (hrest : Delivers (room - (b :: bs).length) o (tail reads)) :
      Delivers room (b :: bs ++ o) reads

/-- **The split makes no difference**: the output is collected if it leaves room in the array, and
given up otherwise. -/
theorem Delivers.collectOutput_eq {room : ℕ} {o : Bytes} {reads : ℕ → Option (UInt8 × Bytes)}
    (h : Delivers room o reads) {out : Bytes} {fuel : ℕ} (hout : out.length + room = maxBuffr)
    (hfuel : room < fuel) :
    collectOutput fuel out reads = if o.length < room then some (out ++ o) else none := by
  induction h generalizing out fuel with
  | noRoom o reads =>
    obtain ⟨fuel, rfl⟩ := Nat.exists_eq_add_of_lt hfuel
    rw [collectOutput, if_pos (by omega), if_neg (by omega)]
  | @finish room reads hend =>
    obtain ⟨fuel, rfl⟩ := Nat.exists_eq_add_of_lt hfuel
    rw [collectOutput]
    by_cases hroom : 0 < room
    · rw [if_neg (by omega), hend, if_pos (by simpa using hroom), List.append_nil]
    · rw [if_pos (by omega), if_neg (by simpa using hroom)]
  | @chunk room b bs o reads hread hroom hrest ih =>
    obtain ⟨fuel, rfl⟩ := Nat.exists_eq_add_of_lt hfuel
    have hpos : 0 < (b :: bs).length := by simp
    have htake : (b :: bs).take (maxBuffr - out.length) = b :: bs :=
      List.take_of_length_le (by omega)
    rw [collectOutput, if_neg (by omega), hread]
    simp only [htake]
    generalize b :: bs = chunk at *
    rw [ih (by rw [List.length_append]; omega) (by omega), List.append_assoc, List.length_append]
    by_cases hlt : chunk.length + o.length < room
    · rw [if_pos hlt, if_pos (by omega)]
    · rw [if_neg hlt, if_neg (by omega)]

/-! ## The answer -/

/-- The declared length of a script response is the number it was made with. -/
theorem declaredLength_scriptResponse (sc : ServerConf) (date : Bytes) (totalBytes : ℕ) :
    (scriptResponse sc date totalBytes).declaredLength = some (totalBytes : Int) := by
  have hheaders : (scriptResponse sc date totalBytes).headers =
      [(ascii "Date", date), (ascii "Server", sc.serverSignature),
        (ascii "Content-Length", printInt totalBytes), (ascii "Content-Type", ascii "text/plain"),
        (ascii "Connection", ascii "Close")] := by
    simp [scriptResponse, addHeader, maxHeaders]
  have h₁ : ascii "Date" ≠ ascii "Content-Length" := by decide
  have h₂ : ascii "Server" ≠ ascii "Content-Length" := by decide
  simp [HttpResponse.declaredLength, hheaders, h₁, h₂, readDecimal_printInt]

/-- A script that can be opened: its answer is the plan for it, delivered. -/
theorem processScript_eq_deliver_of_checked (sc : ServerConf) (args : Body) (path : Bytes)
    {w : World} {f : Opened} (h : w.env.openat2 0 = .ok f) :
    ∃ w', SocketUntouched w w' ∧ processScript sc args path w = deliver (runPlan sc w.env) w' := by
  have hchecked : SocketUntouched w (checkedWorld path f.fd w) :=
    ⟨rfl, rfl, by simp [World.sent, checkedWorld, acceptedBytes_append, acceptedBytes]⟩
  obtain ⟨w', hu, hrun⟩ := runScript_eq_deliver sc args path (checkedWorld path f.fd w)
  exact ⟨w', hchecked.trans hu, (processScript_of_checked sc args path h).trans hrun⟩

/-- The plan for a script that is started. -/
theorem runPlan_of_delivers (sc : ServerConf) {env : Env} {o : Bytes} (hin : env.pipe 0 ≠ none)
    (hout : env.pipe 1 ≠ none) (hfork : env.fork 0 ≠ none)
    (ho : Delivers maxBuffr o env.read) :
    runPlan sc env =
      if o.length < maxBuffr then outputPlan sc o (env.strftime 0) else .silent (-1) := by
  have hcollect : collectOutput (maxBuffr + 1) [] env.read =
      if o.length < maxBuffr then some ([] ++ o) else none :=
    ho.collectOutput_eq (Nat.zero_add _) (Nat.lt_succ_self _)
  simp only [runPlan, hin, hout, hfork, or_self, if_false, hcollect, List.nil_append]
  split_ifs <;> rfl

/-- **Collecting and sending the output of a script.**  For every way the reads split the output:
the loop ends with every range inside the array; an output that leaves room in it is sent behind
a header block that declares its length; any other is given up with nothing sent. -/
theorem scriptOutput_exact (sc : ServerConf) (args : Body) (path : Bytes) {w : World}
    {f : Opened} {inpipe outpipe : ℕ × ℕ} {pid : ℕ} {o : Bytes}
    (hcheck : w.env.openat2 0 = .ok f) (hin : w.env.pipe 0 = some inpipe)
    (hout : w.env.pipe 1 = some outpipe) (hfork : w.env.fork 0 = some pid)
    (ho : Delivers maxBuffr o w.env.read) :
    (∀ buffer w₁, ∃ t,
      (∀ u, While.Ends (collectLoop outpipe.1) ⟨buffer, 0, false, [], w₁⟩ u ↔ u = t) ∧
        t.totalBytes ≤ maxBuffr ∧ (∀ r ∈ t.asked, r.1 + r.2 ≤ maxBuffr) ∧
        readOutput outpipe.1 (maxBuffr + 1) [] w₁ = (t.collected, t.world)) ∧
      (o.length < maxBuffr → ∀ date header, w.env.strftime 0 = some date →
        serializeResponse (scriptResponse sc date o.length) maxBuffr = some header →
          statusLine .ok <+: header ∧
            (scriptResponse sc date o.length).declaredLength = some (o.length : Int) ∧
            (processScript sc args path w).2.sent =
              w.sent ++ (Plan.script header o).delivered w.env ∧
            ((∀ k, w.env.send k = .all) → (processScript sc args path w).1 = 0 ∧
              (processScript sc args path w).2.sent = w.sent ++ (header ++ o))) ∧
      (maxBuffr ≤ o.length → (processScript sc args path w).1 = -1 ∧
        (processScript sc args path w).2.sent = w.sent) := by
  obtain ⟨w', hu, hdeliver⟩ := processScript_eq_deliver_of_checked sc args path hcheck
  have hrun := runPlan_of_delivers sc (by simp [hin]) (by simp [hout]) (by simp [hfork]) ho
  refine ⟨fun buffer w₁ => ?_, fun hlt date header hdate hser => ?_, fun hge => ?_⟩
  · obtain ⟨t, hends, htotal, hasked, hread⟩ := ends_collectLoop outpipe.1 buffer w₁
    exact ⟨t, hends.iff_eq, htotal, hasked, hread⟩
  · have hstatus := statusLine_prefix_of_serializeResponse hser
    rw [status_scriptResponse] at hstatus
    have hplan : runPlan sc w.env = .script header o := by
      rw [hrun, if_pos hlt, hdate, outputPlan, hser]
    have hret := deliver_runPlan_fst sc w.env w'
    obtain ⟨hneg, hsent⟩ := deliver_spec (runPlan sc w.env) hu.send_eq hu.sendfile_eq
      fun _ _ heq => absurd (hplan.symm.trans heq) (by simp)
    rw [← hdeliver] at hret hneg hsent
    rw [hplan, hu.sent_eq] at hsent
    refine ⟨hstatus, declaredLength_scriptResponse sc date o.length, hsent, fun hall => ?_⟩
    have hnotFails : ¬ (runPlan sc w.env).Fails w.env := by
      simp [hplan, Plan.Fails, hall, SendResult.failed]
    refine ⟨hret.resolve_right fun h => hnotFails (hneg.mp (by rw [h]; decide)), ?_⟩
    rw [hsent]
    simp [Plan.delivered, hall, SendResult.accepted, SendResult.failed]
  · rw [hrun, if_neg (Nat.not_lt.mpr hge)] at hdeliver
    rw [hdeliver]
    exact ⟨rfl, hu.sent_eq⟩

/-- A script that writes `hello` in two pieces. -/
def helloScript : Env :=
  { Env.calm ⟨12, []⟩ (ascii "Thu, 01 Jan 1970 00:00:00 GMT") with
    read := fun k => if k = 0 then some (104, ascii "el") else if k = 1 then some (108, [111])
      else none }

theorem helloScript_delivers : Delivers maxBuffr (ascii "hello") helloScript.read := by
  have hlast : Delivers (maxBuffr - 3) (108 :: [111] ++ []) (tail helloScript.read) :=
    .chunk rfl (by decide) (.finish rfl)
  show Delivers maxBuffr (104 :: ascii "el" ++ (108 :: [111] ++ [])) helloScript.read
  exact .chunk rfl (by decide) hlast

/-- The output of a script in two pieces. -/
theorem helloScript_exact :
    ∃ date header, helloScript.strftime 0 = some date ∧
      serializeResponse (scriptResponse sampleConf date 5) maxBuffr = some header ∧
        (processScript sampleConf ⟨0, none⟩ (ascii "/a.py") ⟨helloScript, []⟩).2.sent =
          header ++ ascii "hello" := by
  have hfits : (serializeResponse (scriptResponse sampleConf
      (ascii "Thu, 01 Jan 1970 00:00:00 GMT") 5) maxBuffr).isSome = true := by decide +kernel
  obtain ⟨header, hheader⟩ := Option.isSome_iff_exists.mp hfits
  obtain ⟨-, hsends, -⟩ := scriptOutput_exact sampleConf ⟨0, none⟩ (ascii "/a.py")
    (w := ⟨helloScript, []⟩) rfl rfl rfl rfl helloScript_delivers
  obtain ⟨-, -, -, hall⟩ := hsends (by decide) _ header rfl hheader
  exact ⟨_, header, rfl, hheader, (hall fun _ => rfl).2⟩

end BareHttp
