import BareHttp.Http.ScriptOutput

/-!
# The query of a URL

`process_get` looks for `?` in the URL.  Where it finds one, what follows becomes the arguments
of a script, and the URL is made to end there, which also ends the loop; `process_post` does the
same without the arguments.  The first `?` counts, however many there are (`ends_splitLoop`).

The arguments are handed to `process_script`, which writes them to the input of the script in as
many calls as `write` wants (`writeArgs_delivers`).  Together: a script that is asked for with a
query reads that query and nothing else (`query_delivered`).
-/

namespace BareHttp

/-! ## Looking for the query -/

/-- What the loop of `process_get` over the URL changes.  `scriptArgs` is a position in the URL,
with `none` for `NULL`. -/
structure SplitState where
  i : ℕ
  urlSize : ℕ
  scriptArgs : Option ℕ
  argsLen : ℕ
  deriving DecidableEq

/-- The loop of `process_get` over the URL. -/
def splitLoop (url : Bytes) : While.Loop SplitState where
  test := fun s => decide (s.i < s.urlSize)
  body := fun s =>
    if url[s.i]? = some 63 then .next ⟨s.i + 1, s.i, some (s.i + 1), s.urlSize - (s.i + 1)⟩
    else .next { s with i := s.i + 1 }

/-- The state in front of it. -/
def SplitState.start (url : Bytes) : SplitState := ⟨0, url.length, none, 0⟩

/-- The arguments that are then handed on. -/
def SplitState.args (url : Bytes) (s : SplitState) : Option Bytes :=
  s.scriptArgs.map fun a => (url.drop a).take s.argsLen

/-- What the loop of `process_post` over the URL changes. -/
structure CutState where
  i : ℕ
  urlSize : ℕ
  deriving DecidableEq

/-- The loop of `process_post` over the URL. -/
def cutLoop (url : Bytes) : While.Loop CutState where
  test := fun s => decide (s.i < s.urlSize)
  body := fun s =>
    if url[s.i]? = some 63 then .next ⟨s.i + 1, s.i⟩ else .next { s with i := s.i + 1 }

/-- `process_post` cuts the URL where `process_get` does. -/
theorem ends_cutLoop {url : Bytes} {s t : SplitState} (h : While.Ends (splitLoop url) s t) :
    While.Ends (cutLoop url) ⟨s.i, s.urlSize⟩ ⟨t.i, t.urlSize⟩ := by
  refine h.map (M := cutLoop url) (fun s => ⟨s.i, s.urlSize⟩) (fun s => rfl) fun s => ?_
  simp only [cutLoop, splitLoop]
  split_ifs <;> rfl

/-- The path and the query of a URL are what is in front of its first `?` and behind it. -/
theorem urlPath_urlQuery_append {p : Bytes} (hp : 63 ∉ p) (q : Bytes) :
    urlPath (p ++ 63 :: q) = p ∧ urlQuery (p ++ 63 :: q) = q := by
  induction p with
  | nil => simp [urlPath, urlQuery]
  | cons c p ih =>
    obtain ⟨hpath, hquery⟩ := ih fun h => hp (List.mem_cons_of_mem c h)
    have hne : c ≠ 63 := fun h => hp (by simp [h])
    constructor
    · show (c :: (p ++ 63 :: q)).takeWhile (· ≠ 63) = c :: p
      rw [List.takeWhile_cons_of_pos (by simpa using hne)]
      exact congrArg (c :: ·) hpath
    · show ((c :: (p ++ 63 :: q)).dropWhile (· ≠ 63)).drop 1 = q
      rw [List.dropWhile_cons_of_pos (by simpa using hne)]
      exact hquery

/-- A URL without `?` is its path. -/
theorem urlPath_urlQuery_of_not_mem {url : Bytes} (h : 63 ∉ url) :
    urlPath url = url ∧ urlQuery url = [] := by
  have hall : ∀ c ∈ url, decide (c ≠ 63) = true := by
    intro c hc
    simpa using fun heq : c = 63 => h (heq ▸ hc)
  refine ⟨List.takeWhile_eq_self_iff.mpr hall, ?_⟩
  rw [urlQuery, List.dropWhile_eq_nil_iff.mpr hall, List.drop_nil]

/-- **Where the loop of `process_get` ends**, with the first `?` behind `p`. -/
theorem ends_splitLoop {p : Bytes} (hp : 63 ∉ p) (q : Bytes) :
    ∃ s, While.Ends (splitLoop (p ++ 63 :: q)) (.start (p ++ 63 :: q)) s ∧
      s.urlSize = p.length ∧ s.scriptArgs = some (p.length + 1) ∧ s.argsLen = q.length := by
  have hlen : (p ++ 63 :: q).length = p.length + q.length + 1 := by simp [Nat.add_assoc]
  -- before the `?` only the counter moves, and behind it the loop is over
  refine While.exists_ends
    (fun s => (s.i ≤ p.length ∧ s = ⟨s.i, (p ++ 63 :: q).length, none, 0⟩) ∨
      s = ⟨p.length + 1, p.length, some (p.length + 1), q.length⟩) _
    (fun s => s.urlSize + 1 - s.i) ?_ ?_ (.inl ⟨Nat.zero_le _, rfl⟩)
  · rintro s (⟨hi, heq⟩ | rfl) htest
    · rw [heq] at htest
      simp only [splitLoop, decide_eq_false_iff_not, hlen] at htest
      omega
    · exact ⟨rfl, rfl, rfl⟩
  · rintro s (⟨hi, heq⟩ | rfl) htest
    · refine .inr ?_
      generalize s.i = i at hi heq
      subst heq
      simp only [splitLoop]
      rcases Nat.lt_or_eq_of_le hi with hlt | rfl
      · have hget : (p ++ 63 :: q)[i]? ≠ some 63 := by
          rw [List.getElem?_append_left hlt]
          exact fun h => hp (List.mem_of_getElem? h)
        rw [if_neg hget]
        refine ⟨_, rfl, .inl ⟨hlt, rfl⟩, ?_⟩
        simp only [hlen]
        omega
      · have hget : (p ++ 63 :: q)[p.length]? = some 63 := by simp
        rw [if_pos hget]
        refine ⟨_, rfl, .inr ?_, ?_⟩
        · rw [hlen, SplitState.mk.injEq]
          exact ⟨rfl, rfl, rfl, by omega⟩
        · simp only [hlen]
          omega
    · exact absurd htest (by simp [splitLoop])

/-- The arguments are then all that is behind the `?`. -/
theorem SplitState.args_eq_some {p q : Bytes} {s : SplitState}
    (hargs : s.scriptArgs = some (p.length + 1)) (hlen : s.argsLen = q.length) :
    s.args (p ++ 63 :: q) = some q := by
  have hdrop : (p ++ 63 :: q).drop (p.length + 1) = q := by
    rw [List.drop_length_add_append, List.drop_one, List.tail_cons]
  rw [SplitState.args, hargs, hlen, Option.map_some, hdrop, List.take_length]

/-- Without a `?` it runs to the end. -/
theorem ends_splitLoop_of_not_mem {url : Bytes} (h : 63 ∉ url) :
    ∃ s, While.Ends (splitLoop url) (.start url) s ∧
      s.urlSize = url.length ∧ s.scriptArgs = none ∧ s.argsLen = 0 := by
  refine While.exists_ends
    (fun s : SplitState => s.urlSize = url.length ∧ s.scriptArgs = none ∧ s.argsLen = 0) _
    (fun s => s.urlSize - s.i) (fun s hs _ => hs) ?_ ⟨rfl, rfl, rfl⟩
  intro s hs htest
  have hlt : s.i < s.urlSize := by simpa [splitLoop] using htest
  have hget : url[s.i]? ≠ some 63 := fun heq => h (List.mem_of_getElem? heq)
  simp only [splitLoop, if_neg hget]
  refine .inr ⟨_, rfl, hs, ?_⟩
  simp only
  omega

/-- **The path and the query of every URL** are those the loop finds. -/
theorem exists_ends_splitLoop (url : Bytes) :
    ∃ s, While.Ends (splitLoop url) (.start url) s ∧ url.take s.urlSize = urlPath url ∧
      (s.args url).getD [] = urlQuery url ∧ s.argsLen = (urlQuery url).length := by
  by_cases hmem : 63 ∈ url
  · obtain ⟨p, q, rfl, hp⟩ := List.eq_append_cons_of_mem hmem
    obtain ⟨hpath, hquery⟩ := urlPath_urlQuery_append hp q
    obtain ⟨s, hends, hsize, hargs, hlen⟩ := ends_splitLoop hp q
    refine ⟨s, hends, ?_, ?_, ?_⟩
    · rw [hsize, hpath, List.take_left]
    · rw [SplitState.args_eq_some hargs hlen, hquery, Option.getD_some]
    · rw [hlen, hquery]
  · obtain ⟨hpath, hquery⟩ := urlPath_urlQuery_of_not_mem hmem
    obtain ⟨s, hends, hsize, hargs, hlen⟩ := ends_splitLoop_of_not_mem hmem
    refine ⟨s, hends, ?_, ?_, ?_⟩
    · rw [hsize, hpath, List.take_length]
    · rw [SplitState.args, hargs, hquery]
      rfl
    · rw [hlen, hquery]
      rfl

/-! ## Writing it to a script -/

/-- What the loop that writes the arguments changes. -/
structure WriteState where
  totalBytes : ℕ
  world : World

/-- The loop of `process_script` that writes the arguments. -/
def writeLoop (fd : ℕ) (args : Bytes) (argsLen : ℕ) : While.Loop WriteState where
  test := fun s => decide (s.totalBytes < argsLen)
  body := fun s =>
    let w := { s.world with env := { s.world.env with write := tail s.world.env.write } }
    match s.world.env.write 0 with
    | none => .stop { s with world := w }
    | some n =>
      let nBytes := min (n + 1) (argsLen - s.totalBytes)
      .next ⟨s.totalBytes + nBytes,
        w.log (.write fd (some ((args.drop s.totalBytes).take nBytes)))⟩

/-- **The loop ends**, and the loop with a bound on its rounds does what it does. -/
theorem ends_writeArgs (fd : ℕ) (args : Bytes) (argsLen fuel total : ℕ) (w : World)
    (hfuel : argsLen ≤ total + fuel) :
    ∃ stop, While.Ends (writeLoop fd args argsLen) ⟨total, w⟩
      ⟨stop, writeArgs fd (some (args.drop total)) fuel (argsLen - total) w⟩ := by
  induction fuel generalizing total w with
  | zero => exact ⟨total, .leave (by simpa [writeLoop] using hfuel)⟩
  | succ fuel ih =>
    simp only [writeArgs]
    by_cases hlt : total < argsLen
    · have htest : (writeLoop fd args argsLen).test ⟨total, w⟩ = true := by
        simpa [writeLoop] using hlt
      rw [if_neg (by omega)]
      cases hwrite : w.env.write 0 with
      | none => exact ⟨total, .stop htest (by simp only [writeLoop, hwrite])⟩
      | some n =>
        have hpos : 0 < min (n + 1) (argsLen - total) := by omega
        have hbody : (writeLoop fd args argsLen).body ⟨total, w⟩ =
            .next ⟨total + min (n + 1) (argsLen - total),
              World.log { w with env := { w.env with write := tail w.env.write } }
                (.write fd (some ((args.drop total).take (min (n + 1) (argsLen - total)))))⟩ := by
          simp only [writeLoop, hwrite]
        obtain ⟨stop, hends⟩ := ih (total + min (n + 1) (argsLen - total))
          (World.log { w with env := { w.env with write := tail w.env.write } }
            (.write fd (some ((args.drop total).take (min (n + 1) (argsLen - total))))))
          (by omega)
        refine ⟨stop, .next htest hbody ?_⟩
        rwa [← List.drop_drop, Nat.sub_add_eq] at hends
    · rw [if_pos (by omega)]
      exact ⟨total, .leave (by simpa [writeLoop] using hlt)⟩

/-- What holds in front of every round if no `write` fails: the bytes written so far are those of
the arguments, in pieces. -/
structure Written (fd : ℕ) (args : Bytes) (before : List Event) (s : WriteState) : Prop where
  takes : ∀ k, (s.world.env.write k).isSome = true
  total_le : s.totalBytes ≤ args.length
  pieces : ∃ pieces : List Bytes,
    s.world.trace = before ++ pieces.map (fun c => .write fd (some c)) ∧
      pieces.flatten = args.take s.totalBytes

/-- One `write` adds a piece. -/
theorem Written.write {fd : ℕ} {args : Bytes} {before : List Event} {total n : ℕ} {w : World}
    (h : Written fd args before ⟨total, w⟩) (hn : n ≤ args.length - total) :
    Written fd args before ⟨total + n,
      World.log { w with env := { w.env with write := tail w.env.write } }
        (.write fd (some ((args.drop total).take n)))⟩ := by
  obtain ⟨htakes, hle, pieces, htrace, hflatten⟩ := h
  simp only at hle htrace hflatten
  refine ⟨fun k => htakes (k + 1), ?_, pieces ++ [(args.drop total).take n], ?_, ?_⟩
  · show total + n ≤ args.length
    omega
  · simp [World.log, htrace]
  · rw [List.flatten_append, hflatten, List.flatten_singleton, List.take_add]

/-- **All arguments are written**, whatever the pieces. -/
theorem writeArgs_delivers (fd : ℕ) (args : Bytes) {w : World}
    (htakes : ∀ k, (w.env.write k).isSome = true) :
    ∃ pieces : List Bytes,
      (writeArgs fd (some args) args.length args.length w).trace =
          w.trace ++ pieces.map (fun c => .write fd (some c)) ∧ pieces.flatten = args := by
  obtain ⟨t, hends, hwritten, hdone⟩ := While.exists_ends (L := writeLoop fd args args.length)
    (Written fd args w.trace)
    (fun s => Written fd args w.trace s ∧ args.length ≤ s.totalBytes)
    (fun s => args.length - s.totalBytes)
    (fun s hs htest => ⟨hs, by simpa [writeLoop] using htest⟩)
    (by
      rintro ⟨total, w⟩ hs htest
      have hlt : total < args.length := by simpa [writeLoop] using htest
      obtain ⟨n, hn⟩ := Option.isSome_iff_exists.mp (hs.takes 0)
      simp only at hn
      simp only [writeLoop, hn]
      refine .inr ⟨_, rfl, hs.write (Nat.min_le_right _ _), ?_⟩
      simp only
      omega)
    (s := ⟨0, w⟩) ⟨htakes, Nat.zero_le _, [], by simp, by simp⟩
  obtain ⟨stop, hwrite⟩ := ends_writeArgs fd args args.length args.length 0 w (by omega)
  obtain rfl := hends.unique hwrite
  obtain ⟨-, -, pieces, htrace, hflatten⟩ := hwritten
  refine ⟨pieces, htrace, hflatten.trans (List.take_of_length_le hdone)⟩

/-! ## From the URL to the script -/

theorem Finishing.not_isWrite {e : Event} (h : Finishing e) : e.isWrite = false := by
  rcases h with ⟨fd, bytes, rfl⟩ | ⟨fd, rfl⟩ | ⟨pid, rfl⟩ | ⟨bufs, rfl | ⟨buf, -, k, rfl⟩⟩ <;> rfl

/-- **The arguments of a script that is started** are what is written to its input before that is
closed. -/
theorem processScript_writes (sc : ServerConf) (args path : Bytes) {w : World} {f : Opened}
    {inpipe outpipe : ℕ × ℕ} {pid : ℕ} (hcheck : w.env.openat2 0 = .ok f)
    (hin : w.env.pipe 0 = some inpipe) (hout : w.env.pipe 1 = some outpipe)
    (hfork : w.env.fork 0 = some pid) (htakes : ∀ k, (w.env.write k).isSome = true) :
    ∃ (before after : List Event) (pieces : List Bytes),
      (processScript sc ⟨args.length, some args⟩ path w).2.trace =
          w.trace ++ (before ++ pieces.map (fun c => .write inpipe.2 (some c)) ++
            .close inpipe.2 :: after) ∧
        .pipe inpipe ∈ before ∧ (∀ e ∈ before ++ after, e.isWrite = false) ∧
        pieces.flatten = args := by
  rw [processScript_of_checked sc _ path hcheck]
  obtain ⟨writes, finish, -, hfinish, hwrites, htrace⟩ := runScript_trace sc
    ⟨args.length, some args⟩ path (w := checkedWorld path f.fd w) hin hout hfork
  obtain ⟨pieces, hpieces, hflatten⟩ := writeArgs_delivers inpipe.2 args
    (w := startedWorld path inpipe outpipe pid (checkedWorld path f.fd w)) htakes
  obtain rfl := List.append_cancel_left (hwrites.symm.trans hpieces)
  have hbefore : (startedWorld path inpipe outpipe pid (checkedWorld path f.fd w)).trace =
      w.trace ++ [.openat2 path.tail? (some f.fd), .close f.fd,
        .openat2 path.tail? (openedFd (w.env.openat2 1)), .pipe inpipe, .pipe outpipe, .fork pid,
        .close inpipe.1, .close outpipe.2] := by
    simp [startedWorld, checkedWorld]
  rw [hbefore, List.append_assoc w.trace, List.append_assoc w.trace] at htrace
  refine ⟨_, finish, pieces, htrace, by simp, fun e he => ?_, hflatten⟩
  rcases List.mem_append.mp he with he | he
  · simp only [List.mem_cons, List.not_mem_nil, or_false] at he
    rcases he with rfl | rfl | rfl | rfl | rfl | rfl | rfl | rfl <;> rfl
  · exact (hfinish e he).not_isWrite

/-- **A query is delivered to its script.**  Of a URL that is a path, a `?` and a query, both
handlers build the path, and where that is a script that can be started and no `write` fails, the
bytes written to its input before that is closed are the query. -/
theorem query_delivered {p q : Bytes} (hp : 63 ∉ p) (hlen : p.length ≤ maxPath - 1)
    (htrav : checkPathTraversal (p ++ 63 :: q) = false) :
    let url := p ++ 63 :: q
    let path := if p = [47] then ascii "/index.html" else p
    (∃ s, (∀ t, While.Ends (splitLoop url) (.start url) t ↔ t = s) ∧
      buildPath (url.take s.urlSize) = some path ∧ s.args url = some q) ∧
    (∃ s, (∀ t, While.Ends (cutLoop url) ⟨0, url.length⟩ t ↔ t = s) ∧
      buildPath (url.take s.urlSize) = some path) ∧
    (isScript path = true → ∀ sc request w f inpipe outpipe pid, request.url = url →
      w.env.openat2 0 = .ok f → w.env.pipe 0 = some inpipe → w.env.pipe 1 = some outpipe →
        w.env.fork 0 = some pid → (∀ k, (w.env.write k).isSome = true) →
          ∃ (before after : List Event) (pieces : List Bytes),
            (processGet sc request w).2.trace =
                w.trace ++ (before ++ pieces.map (fun c => .write inpipe.2 (some c)) ++
                  .close inpipe.2 :: after) ∧
              .pipe inpipe ∈ before ∧ (∀ e ∈ before ++ after, e.isWrite = false) ∧
              pieces.flatten = q) := by
  obtain ⟨hpath, hquery⟩ := urlPath_urlQuery_append hp q
  have hbuild : buildPath p = some (if p = [47] then ascii "/index.html" else p) := by
    rw [buildPath, if_neg (Nat.not_lt.mpr hlen)]
    split_ifs <;> rfl
  obtain ⟨s, hends, hsize, hargs, hargsLen⟩ := ends_splitLoop hp q
  have htake : (p ++ 63 :: q).take s.urlSize = p := by rw [hsize, List.take_left]
  refine ⟨⟨s, hends.iff_eq, ?_, ?_⟩, ⟨⟨s.i, s.urlSize⟩, (ends_cutLoop hends).iff_eq, ?_⟩, ?_⟩
  · rw [htake, hbuild]
  · exact SplitState.args_eq_some hargs hargsLen
  · rw [htake, hbuild]
  · intro hscript sc request w f inpipe outpipe pid hurl hcheck hin hout hfork htakes
    have hget : (processGet sc request w).2 = (processScript sc ⟨q.length, some q⟩
        (if p = [47] then ascii "/index.html" else p) w).2 := by
      simp only [processGet, hurl, htrav, hpath, hquery, hbuild, hscript, Bool.false_eq_true,
        if_false, if_true]
      split_ifs <;> rfl
    rw [hget]
    exact processScript_writes sc q _ hcheck hin hout hfork htakes

/-- A script that is asked for with a query in which there is another `?`. -/
theorem query_delivered_hello :
    ∃ pieces : List Bytes, pieces.flatten = ascii "a=1?b" ∧
      ∃ before after, (processGet sampleConf
          { HttpRequest.zeroed with url := ascii "/hello.py?a=1?b" } ⟨helloScript, []⟩).2.trace =
        before ++ pieces.map (fun c => .write 21 (some c)) ++ .close 21 :: after := by
  obtain ⟨-, -, hscript⟩ := query_delivered (p := ascii "/hello.py") (q := ascii "a=1?b")
    (by decide) (by decide) (by decide +kernel)
  obtain ⟨before, after, pieces, htrace, -, -, hflatten⟩ := hscript (by decide +kernel) sampleConf
    { HttpRequest.zeroed with url := ascii "/hello.py?a=1?b" } ⟨helloScript, []⟩ ⟨12, []⟩ (20, 21)
    (22, 23) 100 rfl rfl rfl rfl rfl (fun _ => rfl)
  exact ⟨pieces, hflatten, before, after, htrace⟩

end BareHttp
