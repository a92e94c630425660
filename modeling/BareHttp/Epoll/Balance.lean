import BareHttp.Epoll.Registration

/-!
# The descriptors of the epoll server

Back at `epoll_wait` the process should have open what it had when it was started and the
descriptors of the clients in the list, and nothing else.  Nothing else is ever closed by
the loop, so a file that `http_process_request` leaves open stays open: the balance holds at
the end of a run exactly if no request of the run leaves one (`balanced_iff`).

There are two ways to leave one (`Leaks`).  `process_script` opens the script a second time
and never closes it, so every script that can be opened twice is lost; and `send_file`
returns in front of its `close` where `sendfile` did not move the whole file.
-/

namespace BareHttp
namespace Epoll
namespace Loop

open PointerList Transition

variable {sc : ServerConf} {tail : ℕ} {s s' t : State} {l : Label} {ls : List Label}

/-! ## Requests that leave something open -/

/-- The script is opened a second time. -/
def ScriptLeaks (env : Env) : Prop :=
  ∃ f g, env.openat2 0 = .ok f ∧ env.openat2 1 = .ok g

/-- The header of the file goes out and the file is opened, but a call of `sendfile` moves
nothing short of its size. -/
def FileLeaks (sc : ServerConf) (path : Bytes) (env : Env) : Prop :=
  (∃ header body, filePlan sc path env = .file header body) ∧ (env.send 0).failed = false ∧
    ∃ f st, env.openat2 1 = .ok f ∧ env.fstat 1 = some st ∧
      Stalls f.content st.stSize 0 env.sendfile

/-- **A request leaves a descriptor open.** -/
def Leaks (sc : ServerConf) (request : HttpRequest) (env : Env) : Prop :=
  ∃ path, target request = some path ∧
    match requestMethodType request.method with
    | .get => if isScript path then ScriptLeaks env else FileLeaks sc path env
    | .post => isScript path = true ∧ ScriptLeaks env
    | _ => False

theorem scriptLeft_eq_zero_iff (env : Env) : scriptLeft env = 0 ↔ ¬ ScriptLeaks env := by
  unfold scriptLeft ScriptLeaks openedBy
  cases env.openat2 0 with
  | error e => simp
  | ok f =>
    cases env.openat2 1 with
    | error e => simp
    | ok g => simp

theorem unsent_eq_zero_iff (opened : Except Errno Opened) (stat : Option Stat)
    (results : ℕ → SendfileResult) :
    unsent opened stat results = 0 ↔
      ¬ ∃ f st, opened = .ok f ∧ stat = some st ∧ Stalls f.content st.stSize 0 results := by
  cases opened with
  | error e => simp [unsent]
  | ok f =>
    cases stat with
    | none => simp [unsent]
    | some st =>
      have hiff := finalOffset_lt_iff f.content st.stSize st.stSize 0 results
        (Nat.le_of_eq (Nat.zero_add st.stSize).symm)
      by_cases hstalls : Stalls f.content st.stSize 0 results
      · simp [unsent, hiff.mpr hstalls, hstalls]
      · simp [unsent, Nat.not_lt.mp (hiff.not.mpr hstalls), hstalls]

theorem fileLeft_eq_zero_iff (sc : ServerConf) (path : Bytes) (env : Env) :
    fileLeft sc path env = 0 ↔ ¬ FileLeaks sc path env := by
  unfold fileLeft FileLeaks
  cases hplan : filePlan sc path env with
  | file header path' =>
    cases hfail : (env.send 0).failed with
    | true => simp
    | false => simp [unsent_eq_zero_iff]
  | silent | page | options | script => simp

/-- **What a request leaves open is nothing exactly if it does not leak.** -/
theorem leftOpen_eq_zero_iff (sc : ServerConf) (request : HttpRequest) (env : Env) :
    leftOpen sc request env = 0 ↔ ¬ Leaks sc request env := by
  unfold leftOpen Leaks
  cases htarget : target request with
  | none => cases requestMethodType request.method <;> simp
  | some path =>
    cases requestMethodType request.method with
    | get =>
      by_cases hscript : isScript path = true
      · simp [hscript, scriptLeft_eq_zero_iff]
      · simp [hscript, fileLeft_eq_zero_iff]
    | post =>
      by_cases hscript : isScript path = true
      · simp [hscript, scriptLeft_eq_zero_iff]
      · simp [hscript]
    | options => simp
    | unknown => simp

/-! ## The balance along a run -/

/-- No request is answered that leaks. -/
def Closes (sc : ServerConf) (s : State) : Label → Prop
  | .io r env _ =>
    ∀ c ∈ s.next, ∀ request, clientIo c.cd r = .dispatch request → ¬ Leaks sc request env
  | _ => True

/-- A client's event leaves nothing open exactly if it does not end in a request that leaks. -/
theorem leftBy_eq_zero_iff (sc : ServerConf) (c : Client) (r : RecvResult) (env : Env) :
    leftBy sc c r env = 0 ↔
      ∀ request, clientIo c.cd r = .dispatch request → ¬ Leaks sc request env := by
  unfold leftBy
  cases clientIo c.cd r with
  | dispatch request => simp [leftOpen_eq_zero_iff]
  | keep | close | corrupt => simp

instance (sc : ServerConf) (s : State) : (l : Label) → Decidable (Closes sc s l)
  | .io r env _ => decidable_of_iff (∀ c ∈ s.next, leftBy sc c r env = 0)
      (forall₂_congr fun c _ => leftBy_eq_zero_iff sc c r env)
  | .wait _ | .waitFails | .accept .. | .acceptFails | .release _ => .isTrue trivial

/-- **The balance**: what is open is what was open when the server was started, and the
descriptors of the clients. -/
def State.Balanced (startup : List ℕ) (s : State) : Prop :=
  ∀ fd, s.table fd ≠ none ↔
    fd ∈ startup ∨ ∃ a c, s.clients.data a = some c ∧ c.cd.fd = fd

/-- A descriptor denotes what it did at the start, or it was free then and is a client's or
has been lost. -/
def Traced (start : ℕ → Option Object) (s : State) : Prop :=
  ∀ fd, s.table fd = start fd ∨
    (start fd = none ∧ ((∃ k, s.table fd = some (.socket k)) ∨ s.table fd = some .file))

/-- Nothing has been lost. -/
def NoFile (s : State) : Prop := ∀ fd, s.table fd ≠ some .file

/-- What a branch leaves of the files. -/
theorem noFile_of_tornDown {p : ℕ} {nodes : List ℕ} {c : Client} {rest : List EventData}
    {kept : List ℕ} {own : Multiset ℕ} {first : Prop} (hl : Listed tail s nodes)
    (hc : s.clients.data p = some c) (htorn : TornDown s p c rest kept own first s') :
    NoFile s' ↔ NoFile s ∧ own = 0 := by
  have htable := hl.table p c hc
  have hfile : ∀ fd, s'.table fd = some .file ↔ fd ∈ own ∨ s.table fd = some .file := by
    intro fd
    rw [htorn.table]
    by_cases hfd : fd = c.cd.fd
    · subst hfd
      have hown : c.cd.fd ∉ own := fun hmem => by
        rw [htorn.fresh _ hmem] at htable
        exact absurd htable (by simp)
      simp [hown, htable]
    · by_cases hown : fd ∈ own
      · simp [hfd, hown]
      · simp [hfd, hown]
  simp only [NoFile, ne_eq, hfile, not_or, forall_and, Multiset.eq_zero_iff_forall_notMem]
  exact and_comm

/-- **One step loses something exactly if it answers a request that leaks.** -/
theorem noFile_of_move {nodes : List ℕ} (hl : Listed tail s nodes) (hm : Move sc s l s') :
    NoFile s' ↔ NoFile s ∧ Closes sc s l := by
  cases hm with
  | waits | waitFails | acceptFails | releases => simp [NoFile, Closes]
  | accepts fd a added rest hbatch hfd ha hcell =>
    have hfile : ∀ f, (s.enroll fd a added rest).table f = some .file ↔ s.table f = some .file := by
      intro f
      by_cases hf : f = fd
      · simp [State.enroll, hf, hfd]
      · simp [State.enroll, Function.update_of_ne hf]
    simp [NoFile, Closes, hfile]
  | dangles p rest r env kept hbatch hc => simp [NoFile, Closes, State.next_eq hbatch, hc]
  | overflows p c rest r env hbatch hc hadm hio =>
    simp [NoFile, Closes, State.next_eq hbatch, hc, hio]
  | keeps p c cd rest r env hbatch hc hadm hio =>
    simp [NoFile, Closes, State.next_eq hbatch, hc, hio]
  | tears p c rest r env kept _ hbatch hc hadm hkeep hcorrupt htorn =>
    rw [noFile_of_tornDown hl hc htorn]
    refine and_congr_right fun _ => ?_
    simp only [Closes, State.next_eq hbatch, hc, Option.mem_some_iff, forall_eq']
    exact leftBy_eq_zero_iff sc c r env

theorem traced_of_move {start : ℕ → Option Object} {nodes : List ℕ}
    (hstart : ∀ fd k, start fd ≠ some (.socket k)) (h : Traced start s)
    (hl : Listed tail s nodes) (hm : Move sc s l s') : Traced start s' := by
  -- a number that is free or a client's was free at the start
  have hfree : ∀ fd, s.table fd = none → start fd = none := by
    intro fd hfd
    rcases h fd with heq | ⟨hnone, -⟩
    · rw [← heq, hfd]
    · exact hnone
  cases hm with
  | waits | waitFails | acceptFails | releases | dangles | overflows | keeps => exact h
  | accepts fd a added rest hbatch hfd ha hcell =>
    intro f
    by_cases hf : f = fd
    · subst hf
      exact .inr ⟨hfree f hfd, .inl ⟨s.accepted, by simp [State.enroll]⟩⟩
    · simpa only [State.enroll, Function.update_of_ne hf] using h f
  | tears p c rest r env kept _ hbatch hc hadm hkeep hcorrupt htorn =>
    intro f
    rw [htorn.table]
    by_cases hf : f = c.cd.fd
    · subst hf
      have hnone : start c.cd.fd = none := by
        rcases h c.cd.fd with heq | ⟨hnone, -⟩
        · exact absurd (heq.symm.trans (hl.table p c hc)) (hstart _ _)
        · exact hnone
      exact .inl (by simp [hnone])
    · by_cases hown : f ∈ leftBy sc c r env
      · exact .inr ⟨hfree f (htorn.fresh f hown), .inr (by simp [hf, hown])⟩
      · simpa only [if_neg hf, if_neg hown] using h f

/-- The balance holds where nothing has been lost. -/
theorem balanced_iff_noFile {start : ℕ → Option Object} {startup nodes : List ℕ}
    (hstart : ∀ fd, start fd ≠ some .file ∧ ∀ k, start fd ≠ some (.socket k))
    (hstartup : ∀ fd, start fd ≠ none ↔ fd ∈ startup) (h : Traced start s)
    (hl : Listed tail s nodes) : s.Balanced startup ↔ NoFile s := by
  constructor
  · intro hbal fd hfile
    rcases (hbal fd).mp (by simp [hfile]) with hmem | ⟨a, c, hc, rfl⟩
    · rcases h fd with heq | ⟨hnone, -⟩
      · exact (hstart fd).1 (heq.symm.trans hfile)
      · exact (hstartup fd).mpr hmem hnone
    · exact absurd (hfile.symm.trans (hl.table a c hc)) (by simp)
  · intro hno fd
    constructor
    · intro hopen
      rcases h fd with heq | ⟨-, ⟨k, hk⟩ | hfile⟩
      · rw [heq] at hopen
        exact .inl ((hstartup fd).mp hopen)
      · obtain ⟨a, c, hc, -, hfd⟩ := hl.owner fd k hk
        exact .inr ⟨a, c, hc, hfd⟩
      · exact absurd hfile (hno fd)
    · rintro (hmem | ⟨a, c, hc, rfl⟩)
      · rcases h fd with heq | ⟨hnone, -⟩
        · rw [heq]
          exact (hstartup fd).mpr hmem
        · exact absurd hnone ((hstartup fd).mpr hmem)
      · simp [hl.table a c hc]

/-- What holds of the clients and the descriptors as long as the loop goes on. -/
def Sound (tail : ℕ) (start : ℕ → Option Object) (s : State) : Prop :=
  s.status = .running → (∃ nodes, Listed tail s nodes) ∧ Traced start s

theorem Sound.of_step {start : ℕ → Option Object} (h : Sound tail start s)
    (hstart : ∀ fd k, start fd ≠ some (.socket k)) (hs : step sc s l = some s') :
    Sound tail start s' := by
  obtain ⟨⟨nodes, hl⟩, htraced⟩ := h (status_of_step hs)
  have hm := move_of_step hl hs
  exact fun hrunning => ⟨hl.of_move hm hrunning, traced_of_move hstart htraced hl hm⟩

/-- **The balance holds at the end of a run exactly if no request of it leaks.** -/
theorem balanced_iff (active sockfd epollfd : ℕ) (base : List ℕ) (vars : Vars)
    (h : run (step sc) (State.initial active sockfd epollfd base vars) ls = some t)
    (ht : t.status = .running) :
    t.Balanced (sockfd :: epollfd :: base) ↔
      Along (step sc) (Closes sc) (State.initial active sockfd epollfd base vars) ls := by
  set s₀ := State.initial active sockfd epollfd base vars with hs₀
  have hstart : ∀ fd, s₀.table fd ≠ some .file ∧ ∀ k, s₀.table fd ≠ some (.socket k) := by
    intro fd
    simp only [hs₀, State.initial]
    split_ifs <;> simp
  have hstartup : ∀ fd, s₀.table fd ≠ none ↔ fd ∈ sockfd :: epollfd :: base := by
    intro fd
    simp only [hs₀, State.initial, List.mem_cons]
    split_ifs <;> simp_all
  have hkeep : ∀ s l s', Sound active s₀.table s → step sc s l = some s' →
      Sound active s₀.table s' := fun _ _ _ hs hl => hs.of_step (fun fd => (hstart fd).2) hl
  have hsound : Sound active s₀.table s₀ :=
    fun _ => ⟨⟨[], .initial sockfd epollfd base vars⟩, fun _ => .inl rfl⟩
  obtain ⟨⟨nodes, hl⟩, htraced⟩ := run_invariant hkeep hsound h ht
  rw [balanced_iff_noFile hstart hstartup htraced hl]
  have hrun := run_iff_along (Q := NoFile) (P := Closes sc) hkeep
    (fun s l s' hs hl => by
      obtain ⟨⟨nodes, hlisted⟩, -⟩ := hs (status_of_step hl)
      exact noFile_of_move hlisted (move_of_step hlisted hl)) hsound h
  rw [hrun]
  exact and_iff_right fun fd => (hstart fd).1

/-- A client is accepted and gets a file. -/
def fileServed : List Label :=
  [.wait [none], .accept 7 100 true, .wait [some 0],
    .io (.data (ascii "GET /a.txt HTTP/1.1\r\n\r\n")) plainEnv []]

theorem fileServed_balanced :
    ∃ t, run (step sampleConf) started fileServed = some t ∧ t.batch = [] ∧
      Along (step sampleConf) (Closes sampleConf) started fileServed ∧
      t.Balanced [5, 6, 0, 1, 2, 3, 4] := by
  have hrun : (run (step sampleConf) started fileServed).map (fun t => (t.batch, t.status)) =
      some ([], .running) := by decide +kernel
  obtain ⟨t, ht, heq⟩ := Option.map_eq_some_iff.mp hrun
  obtain ⟨hbatch, hstatus⟩ := Prod.mk.inj heq
  have hcloses : Along (step sampleConf) (Closes sampleConf) started fileServed := by
    decide +kernel
  exact ⟨t, ht, hbatch, hcloses,
    (balanced_iff 0 5 6 [0, 1, 2, 3, 4] ⟨0, 0, 0, 0, .incomplete⟩ ht hstatus).mpr hcloses⟩

/-- Behind the answer to a script the loop is back at `epoll_wait` with the script open. -/
theorem scriptLeaves_not_balanced :
    ∃ t, run (step sampleConf) started (scriptLeaves []) = some t ∧ t.status = .running ∧
      t.batch = [] ∧ ¬ t.Balanced [5, 6, 0, 1, 2, 3, 4] := by
  have hrun : (run (step sampleConf) started (scriptLeaves [])).map
      (fun t => (t.batch, t.status, t.table 9)) = some ([], .running, some .file) := by
    decide +kernel
  obtain ⟨t, ht, heq⟩ := Option.map_eq_some_iff.mp hrun
  simp only [Prod.mk.injEq] at heq
  obtain ⟨hbatch, hstatus, hfile⟩ := heq
  refine ⟨t, ht, hstatus, hbatch, fun hbalanced => ?_⟩
  obtain ⟨nodes, hl⟩ := listed_of_run 0 5 6 [0, 1, 2, 3, 4] ⟨0, 0, 0, 0, .incomplete⟩ ht hstatus
  rcases (hbalanced 9).mp (by simp [hfile]) with hmem | ⟨a, c, hc, hfd⟩
  · exact absurd hmem (by decide)
  · have htable := hl.table a c hc
    rw [hfd, hfile] at htable
    exact absurd htable (by simp)

end Loop
end Epoll
end BareHttp
