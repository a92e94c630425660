import BareHttp.Epoll.Registration

/-!
# One client among others

What happens to a client should depend on what arrives on its connection, and not on the
other clients.  The loop handles all of them with the same variables `ev`, `cd`, `clientfd`,
`bytes_read` and `ret`, in one list and one table of descriptors.

What a step shows of a connection is read off the state behind it (`shown`): the deeds that were
recorded, among them the request that `http_process_request` was given, whether the calls that
were made are those for this request, and what is in memory at `cd`.

`replay` is the machine of a single client: it is given what `recv` returns on its connection, and
nothing else.  A run of the loop, seen from one connection, is a run of this machine
(`trace_shown_eq_replay`): the variables are assigned in front of each use, and an event for
another client leaves this one alone.  It ends as `connection` says for a client on its own
(`outcome_of_run`).  And two runs in which two clients receive the same show the same of them
(`isolated`), whatever the other clients do, whatever the variables held at the start, and
whatever their descriptors and addresses are.
-/

namespace BareHttp
namespace Epoll
namespace Loop

open PointerList Transition

/-- A `client_data` without its descriptor. -/
def anonymous (cd : ClientData) : ClientData := { cd with fd := 0 }

/-- A deed as a connection sees it: sockets have no numbers, but are its own or not. -/
inductive View where
  | receives (own : Bool) (r : RecvResult)
  | closes (cause : CloseCause)
  | answers (own : Bool) (request : HttpRequest)
  deriving DecidableEq

/-- What connection `k` sees of a deed. -/
def Deed.view (k : ℕ) : Deed → Option View
  | .receives on r => some (.receives (on = some (.socket k)) r)
  | .closes cause => some (.closes cause)
  | .answers on request => some (.answers (on = some (.socket k)) request)
  | .makes _ => none

/-- A deed on the socket of connection `k`. -/
def Deed.about (k : ℕ) : Deed → Bool
  | .receives on _ => on = some (.socket k)
  | .answers on _ => on = some (.socket k)
  | _ => false

/-- What `recv` has returned on connection `k`. -/
def Deed.result (k : ℕ) : Deed → Option RecvResult
  | .receives on r => if on = some (.socket k) then some r else none
  | _ => none

/-- The request that `http_process_request` is given. -/
def Deed.request : Deed → Option HttpRequest
  | .answers _ request => some request
  | _ => none

/-- A call that it makes. -/
def Deed.call : Deed → Option Event
  | .makes e => some e
  | _ => none

/-- The calls that were made are those for the requests that were given. -/
def faithful (sc : ServerConf) (env : Env) (ds : List Deed) : Bool :=
  ds.filterMap Deed.call = (ds.filterMap Deed.request).flatMap fun request =>
    answerCalls sc request env

/-- What an event on a client shows: what was done, whether the calls were those for the request
that is shown, the `client_data` that is left, if it was not freed, and whether the socket is
open. -/
structure Change where
  deeds : List View
  faithful : Bool
  after : Option ClientData
  here : Bool

/-- What a single client shows that comes to a given outcome. -/
def Change.ofOutcome (r : RecvResult) : ClientOutcome → Change
  | .keep cd => ⟨[.receives true r], true, some cd, true⟩
  | .close cause => ⟨[.receives true r, .closes cause], true, none, false⟩
  | .dispatch request => ⟨[.receives true r, .answers true request], true, none, false⟩
  | .corrupt => ⟨[.receives true r], true, none, false⟩

/-- The machine of a single client, for one event. -/
def change (cd : ClientData) (r : RecvResult) : Change := .ofOutcome r (clientIo cd r)

/-- The machine of a single client. -/
def replay : Option ClientData → List RecvResult → List Change
  | some cd, r :: rs => change cd r :: replay (change cd r).after rs
  | _, _ => []

/-- What was recorded between two states. -/
def recorded (s s' : State) : List Deed := s'.deeds.drop s.deeds.length

/-- What connection `k` is given in a step. -/
def received (sc : ServerConf) (k : ℕ) (s : State) (l : Label) : Option RecvResult :=
  (step sc s l).bind fun s' => (recorded s s').findSome? (Deed.result k)

/-- What a step shows of connection `k`. -/
def shown (sc : ServerConf) (k : ℕ) (s : State) (l : Label) : Option Change :=
  match l with
  | .io _ env _ =>
    (step sc s l).bind fun s' =>
      if (recorded s s').any (Deed.about k) then
        some {
          deeds := (recorded s s').filterMap (Deed.view k)
          faithful := faithful sc env (recorded s s')
          after := (s'.clients.data s'.vars.cd).map fun c => anonymous c.cd
          here := (s'.sockets k).here }
      else none
  | _ => none

/-- Where connection `k` stands: it has not been accepted yet, it has a client, or it is
gone. -/
inductive Stands (k : ℕ) (s : State) : Option ClientData → Prop
  | waiting (h : s.accepted ≤ k) : Stands k s (some (newClient 0))
  | served (a : ℕ) (c : Client) (hc : s.clients.data a = some c) (hk : c.conn = k) :
      Stands k s (some (anonymous c.cd))
  | gone (hk : k < s.accepted) (h : ∀ a c, s.clients.data a = some c → c.conn ≠ k) :
      Stands k s none

variable {sc : ServerConf} {tail k p : ℕ} {nodes : List ℕ} {c : Client} {s s' t : State}
  {l : Label} {ls : List Label} {v : Option ClientData}

/-- The machine has the descriptor `0`. -/
theorem change_anonymous (cd : ClientData) (r : RecvResult) :
    change (anonymous cd) r = .ofOutcome r ((clientIo cd r).withFd 0) :=
  congrArg (Change.ofOutcome r) (clientIo_withFd cd r 0)

theorem change_of_keep {cd cd' : ClientData} {r : RecvResult} (h : clientIo cd r = .keep cd') :
    change (anonymous cd) r = ⟨[.receives true r], true, some (anonymous cd'), true⟩ := by
  rw [change_anonymous, h]
  rfl

theorem change_of_not_keep {cd : ClientData} {r : RecvResult}
    (h : ∀ cd', clientIo cd r ≠ .keep cd') :
    (change (anonymous cd) r).after = none ∧ (change (anonymous cd) r).here = false := by
  rw [change_anonymous]
  cases hcd : clientIo cd r with
  | keep cd' => exact absurd hcd (h cd')
  | close | dispatch | corrupt => exact ⟨rfl, rfl⟩

/-! ## What is recorded -/

section Deeds

variable {r : RecvResult} {env : Env}

/-- The deeds of an event are about the connection of its client. -/
theorem about_deeds (k : ℕ) : (c.deeds sc r env).any (Deed.about k) = decide (c.conn = k) := by
  cases hio : clientIo c.cd r <;> simp [Client.deeds, hio, Deed.about]

theorem result_deeds (k : ℕ) :
    (c.deeds sc r env).findSome? (Deed.result k) = if c.conn = k then some r else none := by
  by_cases hk : c.conn = k
  · simp [Client.deeds, Deed.result, hk]
  · cases hio : clientIo c.cd r <;> simp [Client.deeds, hio, Deed.result, hk]

/-- **Its client sees in them what the machine does.** -/
theorem view_deeds :
    (c.deeds sc r env).filterMap (Deed.view c.conn) = (change (anonymous c.cd) r).deeds := by
  rw [change_anonymous]
  cases hio : clientIo c.cd r <;>
    simp [Client.deeds, hio, Deed.view, Change.ofOutcome, ClientOutcome.withFd,
      List.filterMap_map, Function.comp_def]

/-- **The calls are those for the request of the client.** -/
theorem faithful_deeds :
    faithful sc env (c.deeds sc r env) = (change (anonymous c.cd) r).faithful := by
  rw [change_anonymous]
  cases hio : clientIo c.cd r <;>
    simp [Client.deeds, hio, faithful, Deed.call, Deed.request, Change.ofOutcome,
      ClientOutcome.withFd, List.filterMap_cons, List.filterMap_map, Function.comp_def]

end Deeds

/-- What is appended is what was recorded. -/
theorem recorded_eq {ds : List Deed} (h : s'.deeds = s.deeds ++ ds) : recorded s s' = ds := by
  rw [recorded, h, List.drop_left]

/-- **What a step records**: the deeds of an event, if it is for a client. -/
theorem recorded_of_move (hl : Listed tail s nodes) (hm : Move sc s l s') :
    (∃ p c r env kept rest, l = .io r env kept ∧ s.batch = .client p :: rest ∧
        s.clients.data p = some c ∧ recorded s s' = c.deeds sc r env) ∨
      ((∀ p c, s.concerns l = some p → s.clients.data p ≠ some c) ∧ recorded s s' = []) := by
  cases hm with
  | waits | waitFails | accepts | acceptFails | releases =>
    exact .inr ⟨fun p c hp => absurd hp (by simp [State.concerns]), List.drop_length⟩
  | dangles p rest r env kept hbatch hc =>
    refine .inr ⟨fun q c hq => ?_, List.drop_length⟩
    obtain rfl : p = q := by simpa [State.concerns, hbatch] using hq
    simp [hc]
  | overflows p c rest r env hbatch hc hadm hio =>
    refine .inl ⟨p, c, r, env, [], rest, rfl, hbatch, hc, recorded_eq ?_⟩
    simp [State.during, Client.deeds, hio, hl.table p c hc]
  | keeps p c cd rest r env hbatch hc hadm hio =>
    refine .inl ⟨p, c, r, env, [], rest, rfl, hbatch, hc, recorded_eq ?_⟩
    simp [State.during, Client.deeds, hio, hl.table p c hc]
  | tears p c rest r env kept _ hbatch hc hadm hkeep hcorrupt htorn hdeeds =>
    exact .inl ⟨p, c, r, env, kept, rest, rfl, hbatch, hc, recorded_eq hdeeds⟩

/-! ## One step, seen from a connection -/

/-- Where the clients behind a step come from. -/
theorem origin_of_move (hl : Listed tail s nodes) (hm : Move sc s l s') {b : ℕ} {d : Client}
    (hd : s'.clients.data b = some d) :
    (∃ c, s.clients.data b = some c ∧ c.conn = d.conn) ∨
      (d.conn = s.accepted ∧ s'.accepted = s.accepted + 1) := by
  cases hm with
  | waits | waitFails | acceptFails | dangles | releases => exact .inl ⟨d, hd, rfl⟩
  | overflows p c rest r env hbatch hc hadm hio cd =>
    by_cases hb : b = p
    · subst hb
      have hset := (Memory.data_set_self hc ⟨cd, c.conn⟩).symm.trans hd
      exact .inl ⟨c, hc, by rw [← Option.some.inj hset]⟩
    · exact .inl ⟨d, (Memory.data_set_of_ne _ _ hb).symm.trans hd, rfl⟩
  | accepts fd a added rest hbatch hfd ha hcell =>
    rcases (State.data_enroll hcell fd added rest b d).mp hd with ⟨-, rfl⟩ | hd
    · exact .inr ⟨rfl, rfl⟩
    · exact .inl ⟨d, hd, rfl⟩
  | keeps p c cd rest r env hbatch hc hadm hio =>
    obtain ⟨c', hc', hconn, -⟩ := Listed.exists_of_key
      (Listed.key_set hc (fd_of_keep hio) b).symm hd
    exact .inl ⟨c', hc', hconn⟩
  | tears p c rest r env kept _ hbatch hc hadm hkeep hcorrupt htorn =>
    exact .inl ⟨d, ((hl.data_tear hc htorn b d).mp hd).2, rfl⟩

/-- The counter of connections. -/
theorem accepted_of_move (hm : Move sc s l s') :
    s'.accepted = s.accepted ∨
      (s'.accepted = s.accepted + 1 ∧
        ∃ a fd, s'.clients.data a = some ⟨newClient fd, s.accepted⟩) := by
  cases hm with
  | accepts fd a added rest hbatch hfd ha hcell =>
    exact .inr ⟨rfl, a, fd, (State.data_enroll hcell fd added rest a _).mpr (.inl ⟨rfl, rfl⟩)⟩
  | tears p c rest r env kept _ hbatch hc hadm hkeep hcorrupt htorn => exact .inl htorn.accepted
  | waits | waitFails | acceptFails | dangles | overflows | keeps | releases => exact .inl rfl

/-- **A step that is not for the connection leaves it where it stands.** -/
theorem stands_of_other (hl : Listed tail s nodes) (hm : Move sc s l s') (hst : Stands k s v)
    (hother : ∀ p c, s.concerns l = some p → s.clients.data p = some c → c.conn ≠ k) :
    Stands k s' v := by
  cases hst with
  | waiting hk =>
    rcases accepted_of_move hm with heq | ⟨heq, a, fd, hdata⟩
    · exact .waiting (heq ▸ hk)
    · rcases Nat.eq_or_lt_of_le hk with rfl | hlt
      · exact .served a ⟨newClient fd, s.accepted⟩ hdata rfl
      · exact .waiting (heq ▸ hlt)
  | served a c hc hk =>
    exact .served a c (hl.data_of_move hm hc fun hconcerns => hother a c hconcerns hc hk) hk
  | gone hk hnone =>
    refine .gone ?_ fun b d hd => ?_
    · rcases accepted_of_move hm with heq | ⟨heq, -⟩
      · rwa [heq]
      · rw [heq]
        exact Nat.lt_succ_of_lt hk
    · rcases origin_of_move hl hm hd with ⟨c, hc, hconn⟩ | ⟨hconn, -⟩
      · rw [← hconn]
        exact hnone b c hc
      · rw [hconn]
        exact Nat.ne_of_gt hk

/-- The connection of a client stands where its client does. -/
theorem stands_client (hl : Listed tail s nodes) (hst : Stands c.conn s v)
    (hc : s.clients.data p = some c) : v = some (anonymous c.cd) := by
  generalize hk : c.conn = k at hst
  cases hst with
  | waiting h => exact absurd (hl.conn_lt p c hc) (Nat.not_lt.mpr (hk ▸ h))
  | served a d hd hdk =>
    obtain rfl := hl.conn_inj hd hc (hdk.trans hk.symm)
    rw [Option.some.inj (hd.symm.trans hc)]
  | gone h hnone => exact absurd hk (hnone p c hc)

/-- **A step for the connection is a step of its machine.** -/
theorem stands_of_event {rest : List EventData} {r : RecvResult} {env : Env} {kept : List ℕ}
    (hl : Listed tail s nodes) (hm : Move sc s (.io r env kept) s') (hs' : s'.status = .running)
    (hbatch : s.batch = .client p :: rest) (hc : s.clients.data p = some c) :
    (s'.clients.data s'.vars.cd).map (fun c => anonymous c.cd) =
        (change (anonymous c.cd) r).after ∧
      (s'.sockets c.conn).here = (change (anonymous c.cd) r).here ∧
      Stands c.conn s' (change (anonymous c.cd) r).after := by
  -- the event of the step is the one at hand
  have hsame : ∀ {q d rest'}, s.batch = .client q :: rest' → s.clients.data q = some d →
      q = p ∧ d = c := by
    intro q d rest' hq hd
    obtain rfl : q = p := by
      have := hq.symm.trans hbatch
      simpa using (List.cons.inj this).1
    exact ⟨rfl, Option.some.inj (hd.symm.trans hc)⟩
  cases hm with
  | dangles | overflows => exact absurd hs' (by simp)
  | keeps q d cd rest' _ _ hq hd hadm hio =>
    obtain ⟨rfl, rfl⟩ := hsame hq hd
    have hdata := Memory.data_set_self hc ⟨cd, d.conn⟩
    rw [change_of_keep hio]
    exact ⟨congrArg _ hdata, (hl.socket q d hc).1, .served q ⟨cd, d.conn⟩ hdata rfl⟩
  | tears q d rest' _ _ _ _ hq hd hadm hkeep hcorrupt htorn =>
    obtain ⟨rfl, rfl⟩ := hsame hq hd
    obtain ⟨hafter, hhere⟩ := change_of_not_keep hkeep
    rw [hafter, hhere, htorn.pointer, (hl.removed hc htorn).2.1]
    refine ⟨rfl, htorn.here,
      .gone (htorn.accepted ▸ hl.conn_lt q d hc) fun b e he hconn => ?_⟩
    obtain ⟨hb, he'⟩ := (hl.data_tear hc htorn b e).mp he
    exact hb (hl.conn_inj he' hc hconn)

/-- **One step, seen from a connection.** -/
theorem stands_of_step (hl : Listed tail s nodes) (hs : step sc s l = some s')
    (hs' : s'.status = .running) (hst : Stands k s v) :
    (received sc k s l = none ∧ shown sc k s l = none ∧ Stands k s' v) ∨
      ∃ cd r, v = some cd ∧ received sc k s l = some r ∧ shown sc k s l = some (change cd r) ∧
        Stands k s' (change cd r).after := by
  have hm := move_of_step hl hs
  rcases recorded_of_move hl hm with
    ⟨p, c, r, env, kept, rest, rfl, hbatch, hc, hdeeds⟩ | ⟨hnone, hdeeds⟩
  · simp only [received, shown, hs, Option.bind_some, hdeeds, about_deeds, result_deeds]
    by_cases hk : c.conn = k
    · subst hk
      obtain rfl := stands_client hl hst hc
      obtain ⟨hafter, hhere, hst'⟩ := stands_of_event hl hm hs' hbatch hc
      refine .inr ⟨_, r, rfl, if_pos rfl, ?_, hst'⟩
      rw [if_pos (decide_eq_true rfl), view_deeds, faithful_deeds, hafter, hhere]
    · refine .inl ⟨if_neg hk, if_neg (by simp [hk]), stands_of_other hl hm hst ?_⟩
      rintro q d hq hd rfl
      obtain rfl : p = q := by simpa [State.concerns, hbatch] using hq
      exact hk (by rw [Option.some.inj (hc.symm.trans hd)])
  · have hshow : shown sc k s l = none := by
      cases l with
      | io r env kept => simp [shown, hs, hdeeds]
      | wait | waitFails | accept | acceptFails | release => rfl
    refine .inl ⟨?_, hshow, stands_of_other hl hm hst fun p c hp hc => absurd hc (hnone p c hp)⟩
    simp [received, hs, hdeeds]

/-! ## Runs -/

theorem running_of_run (h : run (step sc) s ls = some t) (ht : t.status = .running) :
    s.status = .running := by
  cases ls with
  | nil => rwa [Option.some.inj h]
  | cons l ls =>
    obtain ⟨s', hl, -⟩ := run_cons_eq_some h
    exact status_of_step hl

/-- **A run, seen from a connection, is a run of its machine.** -/
theorem trace_shown_eq_replay (hl : Listed tail s nodes) (hst : Stands k s v)
    (h : run (step sc) s ls = some t) (ht : t.status = .running) :
    trace (step sc) (shown sc k) s ls = replay v (trace (step sc) (received sc k) s ls) := by
  induction ls generalizing s v nodes with
  | nil => cases v <;> rfl
  | cons l ls ih =>
    obtain ⟨s', hs, hrest⟩ := run_cons_eq_some h
    have hs' := running_of_run hrest ht
    obtain ⟨nodes', hl'⟩ := hl.of_move (move_of_step hl hs) hs'
    rcases stands_of_step hl hs hs' hst with ⟨hrecv, hshow, hst'⟩ | ⟨cd, r, rfl, hrecv, hshow, hst'⟩
    · simp only [trace, hs, hrecv, hshow, Option.toList_none, List.nil_append]
      exact ih hl' hst' hrest
    · simp only [trace, hs, hrecv, hshow, Option.toList_some, List.singleton_append, replay]
      rw [ih hl' hst' hrest]

/-- The machine ends as the connection of a single client does. -/
theorem getLast_replay (sc : ServerConf) (cd : ClientData) (rs : List RecvResult) (hrs : rs ≠ [])
    (w : World) :
    ∃ r ∈ rs, (replay (some cd) rs).getLast? = some (.ofOutcome r (connection sc cd rs w).1) := by
  induction rs generalizing cd with
  | nil => exact absurd rfl hrs
  | cons r rs ih =>
    cases hio : clientIo cd r with
    | keep cd' =>
      have hchange : change cd r = ⟨[.receives true r], true, some cd', true⟩ := by
        simp [change, hio, Change.ofOutcome]
      simp only [replay, hchange, connection, hio]
      cases rs with
      | nil => exact ⟨r, List.mem_cons_self, rfl⟩
      | cons r' rs =>
        obtain ⟨q, hq, hlast⟩ := ih cd' (by simp)
        refine ⟨q, List.mem_cons_of_mem r hq, ?_⟩
        rw [replay] at hlast ⊢
        rw [List.getLast?_cons_cons]
        exact hlast
    | close | dispatch | corrupt =>
      exact ⟨r, List.mem_cons_self, by simp [replay, change, connection, hio, Change.ofOutcome]⟩

/-- **What a connection comes to in the loop** is what it comes to on its own. -/
theorem outcome_of_run (active sockfd epollfd : ℕ) (base : List ℕ) (vars : Vars) (w : World)
    (h : run (step sc) (State.initial active sockfd epollfd base vars) ls = some t)
    (ht : t.status = .running) {rs : List RecvResult} (hrs : rs ≠ [])
    (htrace : trace (step sc) (received sc k) (State.initial active sockfd epollfd base vars) ls =
      rs) :
    ∃ r ∈ rs, (trace (step sc) (shown sc k) (State.initial active sockfd epollfd base vars)
        ls).getLast? = some (.ofOutcome r (connection sc (newClient 0) rs w).1) := by
  rw [trace_shown_eq_replay (.initial sockfd epollfd base vars) (.waiting (Nat.zero_le k)) h ht,
    htrace]
  exact getLast_replay sc (newClient 0) rs hrs w

/-- The same client behind another one, which has sent a part of a request and is reset. -/
def crowdedLabels : List Label :=
  [.wait [none], .accept 7 300 true, .wait [none, some 0], .accept 8 100 true,
    .io (.data (ascii "POST /b")) plainEnv [], .wait [some 0, some 1], .io .error plainEnv [],
    .io (.data (ascii "GET /a")) plainEnv [], .wait [some 1],
    .io (.data (ascii ".txt HTTP/1.1\r\n\r\n")) plainEnv []]

end Loop
end Epoll
end BareHttp
