import BareHttp.Epoll.Event
import BareHttp.Epoll.Teardown

/-!
# The clients of the loop

In every state in which the loop goes on, the cells that are allocated form a list from
`active_clients` up to the value that variable started with, and they are the clients whose
descriptor is open (`Listed`).  So `remove_client` finds its argument, and what a step can do
is one of nine things (`Move`): a client is torn down as `TornDown` says, whichever branch
does it.

Nothing is assumed about other processes here.  A registration may outlive its client; what
that leads to is an event whose pointer is that of a freed cell, which is one of the nine, or
of a cell that was allocated again, which is an event of that client.
-/

namespace BareHttp
namespace Epoll
namespace Loop

open PointerList

/-- The cells of `active_clients` in front of its first value, and the descriptors of the
clients in them. -/
structure Listed (tail : ℕ) (s : State) (nodes : List ℕ) : Prop where
  linked : Linked s.clients.cells tail s.clients.head nodes
  nodup : nodes.Nodup
  length_le : nodes.length ≤ s.accepted
  mem_iff : ∀ a, a ∈ nodes ↔ ∃ c, s.clients.data a = some c
  conn_lt : ∀ a c, s.clients.data a = some c → c.conn < s.accepted
  table : ∀ a c, s.clients.data a = some c → s.table c.cd.fd = some (.socket c.conn)
  socket : ∀ a c, s.clients.data a = some c → (s.sockets c.conn).here = true ∧
    (s.sockets c.conn).registration = some (c.cd.fd, a)
  owner : ∀ fd k, s.table fd = some (.socket k) →
    ∃ a c, s.clients.data a = some c ∧ c.conn = k ∧ c.cd.fd = fd
  present : ∀ k, (s.sockets k).here = true → ∃ a c, s.clients.data a = some c ∧ c.conn = k
  given : ∀ a c, s.clients.data a = some c → s.given c.cd.fd = some c.conn

/-- The state behind an `accept`. -/
def State.enroll (s : State) (fd a : ℕ) (added : Bool) (rest : List EventData) : State :=
  { s with
    clients := s.clients.push a ⟨newClient fd, s.accepted⟩
    accepted := s.accepted + 1
    table := Function.update s.table fd (some (.socket s.accepted))
    sockets := Function.update s.sockets s.accepted
      ⟨true, false, if added then some (fd, a) else none⟩
    given := Function.update s.given fd (some s.accepted)
    batch := rest
    vars := { s.vars with clientfd := fd, cd := a, ev := a }
    status := if added then s.status else .returned }

/-- The statements for a new client. -/
theorem State.accept_eq (s : State) (fd a : ℕ) (added : Bool) (rest : List EventData) :
    s.accept fd a added rest = s.enroll fd a added rest := by
  cases added <;> simp [accept, enroll, epollAdd]

/-- The clients behind an `accept`. -/
theorem State.data_enroll {s : State} {a : ℕ} (hcell : s.clients.cells a = none) (fd : ℕ)
    (added : Bool) (rest : List EventData) (b : ℕ) (d : Client) :
    (s.enroll fd a added rest).clients.data b = some d ↔
      (b = a ∧ d = ⟨newClient fd, s.accepted⟩) ∨ s.clients.data b = some d := by
  by_cases hb : b = a
  · subst hb
    have hnone : s.clients.data b = none := by simp [Memory.data, hcell]
    simp [enroll, hnone, eq_comm]
  · simp [enroll, Memory.data_push_of_ne _ _ hb, hb]

/-- What is recorded of an event on the client `c`. -/
def Client.deeds (sc : ServerConf) (c : Client) (r : RecvResult) (env : Env) : List Deed :=
  .receives (some (.socket c.conn)) r ::
    match clientIo c.cd r with
    | .close cause => [.closes cause]
    | .dispatch request =>
      .answers (some (.socket c.conn)) request :: (answerCalls sc request env).map .makes
    | _ => []

/-- What an event leaves open that is not a client's. -/
def leftBy (sc : ServerConf) (c : Client) (r : RecvResult) (env : Env) : Multiset ℕ :=
  match clientIo c.cd r with
  | .dispatch request => leftOpen sc request env
  | _ => 0

/-- `EPOLL_CTL_DEL` is called while the descriptor is open: behind a request without a body,
unless `tcp_send` has closed it. -/
def DelFirst (sc : ServerConf) (c : Client) (r : RecvResult) (env : Env) : Prop :=
  match clientIo c.cd r with
  | .dispatch request => c.cd.state = .readingHeaders ∧ .shutdown ∉ answerCalls sc request env
  | _ => False

/-- **The client at `p` has been torn down.**  `own` is what its request leaves open, and
`first` says that `EPOLL_CTL_DEL` came first. -/
structure TornDown (s : State) (p : ℕ) (c : Client) (rest : List EventData) (kept : List ℕ)
    (own : Multiset ℕ) (first : Prop) (s' : State) : Prop where
  removed : s.clients.remove p s.accepted .head = .removed s'.clients
  accepted : s'.accepted = s.accepted
  given : s'.given = s.given
  batch : s'.batch = rest
  pointer : s'.vars.cd = p
  status : s'.status = s.status
  history : ∃ n,
    s'.history = s.history ++ List.replicate n (.used c.conn) ++ [.closed c.conn, .freed c.conn] ∨
    s'.history = s.history ++ List.replicate n (.used c.conn) ++ [.freed c.conn, .closed c.conn]
  fresh : ∀ f ∈ own, s.table f = none
  table : ∀ f, s'.table f =
    if f = c.cd.fd then none else if f ∈ own then some .file else s.table f
  others : ∀ k, k ≠ c.conn → (s'.sockets k).here = (s.sockets k).here ∧
    (s'.sockets k).registration = (s.sockets k).registration
  here : (s'.sockets c.conn).here = false
  elsewhere : ∀ k, (s'.sockets k).elsewhere = true → (s.sockets k).elsewhere = true ∨ k ∈ kept
  registration : first ∨ (s'.sockets c.conn).elsewhere = false →
    (s'.sockets c.conn).registration = none

/-- The address of the client a step is for. -/
def State.concerns (s : State) : Label → Option ℕ
  | .io _ _ _ =>
    match s.batch with
    | .client p :: _ => some p
    | _ => none
  | _ => none

/-- What a step can do. -/
inductive Move (sc : ServerConf) (s : State) : Label → State → Prop
  | waits (evs : List (Option ℕ)) (hbatch : s.batch = []) (hnodup : evs.Nodup)
      (hevs : ∀ e ∈ evs, (s.eventData e).isSome) :
      Move sc s (.wait evs) { s with batch := evs.filterMap s.eventData }
  | waitFails (hbatch : s.batch = []) : Move sc s .waitFails { s with status := .returned }
  | accepts (fd a : ℕ) (added : Bool) (rest : List EventData)
      (hbatch : s.batch = .listener :: rest) (hfd : s.table fd = none) (ha : a ≠ 0)
      (hcell : s.clients.cells a = none) :
      Move sc s (.accept fd a added) (s.enroll fd a added rest)
  | acceptFails (rest : List EventData) (hbatch : s.batch = .listener :: rest) :
      Move sc s .acceptFails { s with status := .returned }
  | dangles (p : ℕ) (rest : List EventData) (r : RecvResult) (env : Env) (kept : List ℕ)
      (hbatch : s.batch = .client p :: rest) (hc : s.clients.data p = none) :
      Move sc s (.io r env kept)
        { s with batch := rest, vars := { s.vars with cd := p }, status := .dangling }
  | overflows (p : ℕ) (c : Client) (rest : List EventData) (r : RecvResult) (env : Env)
      (hbatch : s.batch = .client p :: rest) (hc : s.clients.data p = some c)
      (hadm : Admissible c.cd r) (hio : clientIo c.cd r = .corrupt) (cd : ClientData) (n : ℕ)
      (ret : ParseAnswer) :
      Move sc s (.io r env []) { s.during p c rest r ret n cd with status := .overflowed }
  | keeps (p : ℕ) (c : Client) (cd : ClientData) (rest : List EventData) (r : RecvResult)
      (env : Env) (hbatch : s.batch = .client p :: rest) (hc : s.clients.data p = some c)
      (hadm : Admissible c.cd r) (hio : clientIo c.cd r = .keep cd) (n : ℕ) (ret : ParseAnswer) :
      Move sc s (.io r env []) (s.during p c rest r ret n cd)
  | tears (p : ℕ) (c : Client) (rest : List EventData) (r : RecvResult) (env : Env)
      (kept : List ℕ) (s' : State) (hbatch : s.batch = .client p :: rest)
      (hc : s.clients.data p = some c) (hadm : Admissible c.cd r)
      (hkeep : ∀ cd, clientIo c.cd r ≠ .keep cd) (hcorrupt : clientIo c.cd r ≠ .corrupt)
      (htorn : TornDown s p c rest kept (leftBy sc c r env) (DelFirst sc c r env) s')
      (hdeeds : s'.deeds = s.deeds ++ c.deeds sc r env) : Move sc s (.io r env kept) s'
  | releases (k : ℕ) (helse : (s.sockets k).elsewhere = true) :
      Move sc s (.release k)
        { s with
          sockets := Function.update s.sockets k
            { s.sockets k with elsewhere := false }.settle }

variable {sc : ServerConf} {tail p : ℕ} {nodes : List ℕ} {c : Client} {s s' t : State}
  {rest : List EventData} {r : RecvResult} {env : Env} {kept : List ℕ} {l : Label}

/-! ## Every branch tears a client down -/

/-- The socket of the client behind the branch. -/
theorem sockets_of_acts {fd k : ℕ} {ledger : Ledger} {s₀ : State} (first : Prop)
    [Decidable first] (h : Served fd k kept s₀ ledger t) (hfd : s₀.table fd = some (.socket k))
    (hreg : (s₀.sockets k).registration.map Prod.fst = some fd) :
    let sockets := if first then ((t.epollDel fd).closeFd fd).sockets else (t.closeFd fd).sockets
    (∀ k', k' ≠ k → sockets k' = t.sockets k') ∧ (sockets k).here = false ∧
    (sockets k).elsewhere = (t.sockets k).elsewhere ∧
    ((first ∧ ledger.gone = false) ∨ (sockets k).elsewhere = false →
      (sockets k).registration = none) := by
  intro sockets
  have hown : fd ∉ ledger.own := fun hmem => by
    rw [h.fresh fd hmem] at hfd
    exact absurd hfd (by simp)
  cases hgone : ledger.gone with
  | true =>
    -- the descriptor is closed already, and both calls fail
    have hnone : t.table fd = none := by
      rw [h.table, if_neg hown, if_pos ⟨hgone, rfl⟩]
    have hclosed : (t.closeFd fd).sockets = t.sockets :=
      State.closeFd_sockets_of_ne (by simp [hnone])
    have hdel : t.epollDel fd = t := by
      rw [State.epollDel_eq, State.epollDel_sockets_of_ne (by simp [hnone])]
    have hsockets : sockets = t.sockets := by
      simp only [sockets, hdel, hclosed, ite_self]
    rw [hsockets]
    obtain ⟨hhere, hleft⟩ := h.leaves hgone
    refine ⟨fun _ _ => rfl, hhere, rfl, fun hor => hleft.resolve_right fun helse => ?_⟩
    rcases hor with ⟨-, hfalse⟩ | hfalse
    · exact absurd hfalse (by simp)
    · exact absurd (hfalse.symm.trans helse) (by simp)
  | false =>
    have hsocket : t.table fd = some (.socket k) := by
      rw [h.table, if_neg hown, if_neg (by simp [hgone]), hfd]
    have hmatch : (t.sockets k).registration.map Prod.fst = some fd := by
      rw [(h.stays hgone).2]
      exact hreg
    by_cases hfirst : first
    · have hdel : t.epollDel fd =
          { t with
            sockets := Function.update t.sockets k { t.sockets k with registration := none } } := by
        simp only [State.epollDel, hsocket, if_pos hmatch]
      have hsockets : sockets = Function.update t.sockets k
          (Socket.settle ⟨false, (t.sockets k).elsewhere, none⟩) := by
        simp [sockets, if_pos hfirst, hdel, State.closeFd, hsocket]
      rw [hsockets]
      refine ⟨fun k' hk' => Function.update_of_ne hk' _ _, by simp, by simp, fun _ => ?_⟩
      simp [Socket.settle_registration]
    · have hsockets : sockets = Function.update t.sockets k
          { t.sockets k with here := false }.settle := by
        simp only [sockets, if_neg hfirst]
        exact State.closeFd_sockets hsocket
      rw [hsockets]
      refine ⟨fun k' hk' => Function.update_of_ne hk' _ _, by simp, by simp, fun hor => ?_⟩
      rcases hor with ⟨hcontra, -⟩ | helse
      · exact absurd hcontra hfirst
      · have helse' : (t.sockets k).elsewhere = false := by simpa using helse
        simp [Socket.settle_registration, helse']

/-- **Calls that are in order, and then one of the branches.** -/
theorem tornDown_of_acts {ledger : Ledger} {as : List Action} {ds : List Deed} {n : ℕ}
    {ret : ParseAnswer} {cd : ClientData} (hl : Listed tail s nodes)
    (hc : s.clients.data p = some c)
    (hserved : Served c.cd.fd c.conn kept { s.during p c rest r ret n cd with deeds := ds } ledger
      t) (has : as ∈ orders) :
    TornDown s p c rest kept ledger.own (as = [.remove, .epollDel, .close] ∧ ledger.gone = false)
        (as.foldl State.act t) ∧ (as.foldl State.act t).deeds = t.deeds := by
  have htable := hl.table p c hc
  have hsame := hserved.same
  have hclients : t.clients = s.clients.set p ⟨cd, c.conn⟩ := by rw [hsame]; rfl
  have hvars : t.vars.cd = p ∧ t.vars.clientfd = c.cd.fd := by rw [hsame]; exact ⟨rfl, rfl⟩
  have haccepted : t.accepted = s.accepted := by rw [hsame]; rfl
  have hgiven : t.given = s.given := by rw [hsame]; rfl
  obtain ⟨m, hfound, -⟩ := remove_of_linked hl.linked hl.nodup ((hl.mem_iff p).mpr ⟨c, hc⟩)
  have hm := hfound s.accepted hl.length_le
  have hremove : t.clients.remove t.vars.cd t.accepted .head = .removed m := by
    rw [hclients, hvars.1, haccepted, Memory.remove_set, hm]
  have hconn : (t.clients.data t.vars.cd).map Client.conn = some c.conn := by
    rw [hclients, hvars.1, Memory.data_set_self hc]
    rfl
  obtain ⟨sockets, history, hfold, hhistory, hsockets⟩ :=
    acts_spec has hremove hconn (by rw [hgiven, hvars.2, hl.given p c hc])
  rw [hvars.2] at hfold hsockets
  obtain ⟨hothers, hhere, helse, hreg⟩ := sockets_of_acts
    (as = [.remove, .epollDel, .close]) hserved htable
    (by simp only [State.during, (hl.socket p c hc).2, Option.map_some])
  rw [← hsockets] at hothers hhere helse hreg
  have hhist : t.history = s.history ++ List.replicate n (.used c.conn) := by rw [hsame]; rfl
  rw [hfold]
  refine ⟨⟨hm, haccepted, hgiven, by rw [hsame]; rfl, hvars.1, by rw [hsame]; rfl, ⟨n, ?_⟩,
    hserved.fresh, fun f => ?_, fun k hk => ?_, hhere, fun k hk => ?_, hreg⟩, rfl⟩
  · rcases hhistory with rfl | rfl
    · exact .inl (by simp [hhist])
    · exact .inr (by simp [hhist])
  · by_cases hf : f = c.cd.fd
    · simp [hf]
    · have htf := hserved.table f
      simp only [hf, and_false, if_false, State.during] at htf
      simpa only [Function.update_of_ne hf, if_neg hf] using htf
  · simpa only [hothers k hk, State.during] using hserved.others k hk
  · have hk' : (t.sockets k).elsewhere = true := by
      by_cases hkc : k = c.conn
      · subst hkc
        rw [← helse]
        exact hk
      · rw [← hothers k hkc]
        exact hk
    exact hserved.elsewhere k hk'

/-- A client that gets no answer leaves nothing open, and its descriptor is closed first. -/
theorem leftBy_of_close (sc : ServerConf) (env : Env) {cause : CloseCause}
    (hio : clientIo c.cd r = .close cause) :
    leftBy sc c r env = 0 ∧ ¬ DelFirst sc c r env := by
  simp [leftBy, DelFirst, hio]

/-- The calls of an event begin with nothing open. -/
theorem served_during (hl : Listed tail s nodes) (hc : s.clients.data p = some c) (n : ℕ)
    (ret : ParseAnswer) (cd : ClientData) (ds : List Deed) :
    Served c.cd.fd c.conn kept { s.during p c rest r ret n cd with deeds := ds } ⟨false, 0⟩
      { s.during p c rest r ret n cd with deeds := ds } :=
  .refl (hl.socket p c hc).1

/-- **A client is closed without an answer.** -/
theorem tornDown_of_close {cause : CloseCause} {n : ℕ} {ret : ParseAnswer} {cd : ClientData}
    (hl : Listed tail s nodes) (hc : s.clients.data p = some c)
    (hio : clientIo c.cd r = .close cause)
    (h : (s.during p c rest r ret n cd).tearDown kept cause = some s') :
    TornDown s p c rest kept (leftBy sc c r env) (DelFirst sc c r env) s' ∧
      s'.deeds = s.deeds ++ c.deeds sc r env := by
  simp only [State.tearDown, State.alone] at h
  split at h
  · obtain rfl := Option.some.inj h
    have hserved := @served_during tail p nodes c s rest r kept hl hc n ret cd
      ((s.during p c rest r ret n cd).deeds ++ [.closes cause])
    obtain ⟨htorn, hdeeds⟩ := tornDown_of_acts hl hc hserved (closeActions_mem_orders cause)
    obtain ⟨hleft, hfirst⟩ := leftBy_of_close sc env hio
    refine ⟨?_, hdeeds.trans ?_⟩
    · rw [hleft]
      exact { htorn with
        registration := fun hor => htorn.registration (hor.imp_left fun h => absurd h hfirst) }
    · simp [State.during, Client.deeds, hio, hl.table p c hc]
  · exact absurd h (by simp)

/-- **A client is closed behind its answer.** -/
theorem tornDown_of_dispatch {request : HttpRequest} {n : ℕ} {ret : ParseAnswer} {cd : ClientData}
    (hl : Listed tail s nodes) (hc : s.clients.data p = some c)
    (hio : clientIo c.cd r = .dispatch request)
    (h : (s.during p c rest r ret n cd).answer sc env kept request c.cd.fd
      (answeredActions c.cd.state) = some s') :
    TornDown s p c rest kept (leftBy sc c r env) (DelFirst sc c r env) s' ∧
      s'.deeds = s.deeds ++ c.deeds sc r env := by
  simp only [State.answer] at h
  split at h
  · obtain ⟨t, hcalls, rfl⟩ := Option.map_eq_some_iff.mp h
    obtain ⟨g, hledger⟩ := enters_answerCalls sc request env
    have hserved := (served_during hl hc n ret cd _).of_calls (hl.table p c hc) hledger hcalls
    obtain ⟨htorn, hdeeds⟩ := tornDown_of_acts hl hc hserved
      (answeredActions_mem_orders c.cd.state)
    have hleft : leftBy sc c r env = leftOpen sc request env := by simp [leftBy, hio]
    refine ⟨?_, (hdeeds.trans (State.calls_deeds hcalls)).trans ?_⟩
    · rw [hleft]
      refine { htorn with
        registration := fun hor => htorn.registration (hor.imp_left fun h => ?_) }
      obtain ⟨hheaders, hpipe⟩ : c.cd.state = .readingHeaders ∧
          .shutdown ∉ answerCalls sc request env := by
        simpa [DelFirst, hio] using h
      refine ⟨by rw [hheaders]; rfl, ?_⟩
      have hgone := (gone_iff hledger).not.mpr (by simp [hpipe])
      simpa using hgone
    · simp [State.during, Client.deeds, hio, hl.table p c hc]
  · exact absurd h (by simp)

/-! ## What a step can do -/

/-- **Every event on a client is one of four things.** -/
theorem move_of_clientEvent (hl : Listed tail s nodes) (hs : s.status = .running)
    (hbatch : s.batch = .client p :: rest) (h : s.clientEvent sc p rest r env kept = some s') :
    Move sc s (.io r env kept) s' := by
  cases hc : s.clients.data p with
  | none =>
    rw [State.clientEvent_none hc] at h
    rw [← Option.some.inj h]
    exact .dangles p rest r env kept hbatch hc
  | some c =>
    have hadm := State.admissible_of_clientEvent hc h
    obtain ⟨ret, n, cd, hevent⟩ := @State.clientEvent_eq sc p c s rest r env kept hs hc hadm
    rw [hevent] at h
    cases hio : clientIo c.cd r with
    | keep cd' =>
      simp only [hio, State.finish, State.alone] at h
      split at h
      · next hkept =>
        rw [← Option.some.inj h, hkept]
        exact .keeps p c cd' rest r env hbatch hc hadm hio n ret
      · exact absurd h (by simp)
    | corrupt =>
      simp only [hio, State.finish, State.alone] at h
      split at h
      · next hkept =>
        rw [← Option.some.inj h, hkept]
        exact .overflows p c rest r env hbatch hc hadm hio cd n ret
      · exact absurd h (by simp)
    | close cause =>
      simp only [hio, State.finish] at h
      have hclosed : TornDown s p c rest kept (leftBy sc c r env) (DelFirst sc c r env) s' ∧
          s'.deeds = s.deeds ++ c.deeds sc r env := tornDown_of_close hl hc hio h
      exact .tears p c rest r env kept s' hbatch hc hadm (by simp [hio]) (by simp [hio]) hclosed.1
        hclosed.2
    | dispatch request =>
      simp only [hio, State.finish] at h
      obtain ⟨htorn, hdeeds⟩ := tornDown_of_dispatch hl hc hio h
      exact .tears p c rest r env kept s' hbatch hc hadm (by simp [hio]) (by simp [hio]) htorn
        hdeeds

theorem status_of_step (h : step sc s l = some s') : s.status = .running := by
  by_contra hstatus
  simp [step, hstatus] at h

/-- **Every step is one of nine things.** -/
theorem move_of_step (hl : Listed tail s nodes) (h : step sc s l = some s') :
    Move sc s l s' := by
  have hs := status_of_step h
  simp only [step, if_pos hs] at h
  split at h
  · next evs hbatch =>
    split at h
    · next hguard =>
      rw [← Option.some.inj h]
      exact .waits evs hbatch hguard.2.1 hguard.2.2
    · exact absurd h (by simp)
  · next hbatch =>
    rw [← Option.some.inj h]
    exact .waitFails hbatch
  · next fd a added rest hbatch =>
    split at h
    · next hguard =>
      rw [← Option.some.inj h, State.accept_eq]
      exact .accepts fd a added rest hbatch hguard.1 hguard.2.1 hguard.2.2
    · exact absurd h (by simp)
  · next rest hbatch =>
    rw [← Option.some.inj h]
    exact .acceptFails rest hbatch
  · next r env kept p rest hbatch => exact move_of_clientEvent hl hs hbatch h
  · next k =>
    split at h
    · next helse =>
      rw [← Option.some.inj h]
      exact .releases k helse
    · exact absurd h (by simp)
  · exact absurd h (by simp)

/-! ## The list of clients along a run -/

namespace Listed

/-- What the list of clients is known by. -/
def key (c : Client) : ℕ × ℕ := (c.conn, c.cd.fd)

theorem exists_of_key {o o' : Option Client} {d : Client} (h : o'.map key = o.map key)
    (hd : o = some d) : ∃ d', o' = some d' ∧ d'.conn = d.conn ∧ d'.cd.fd = d.cd.fd := by
  rw [hd] at h
  obtain ⟨d', hd', heq⟩ := Option.map_eq_some_iff.mp h
  exact ⟨d', hd', congrArg Prod.fst heq, congrArg Prod.snd heq⟩

/-- The batch, the variables, the status and the history do not matter, and neither does
what the clients have sent. -/
theorem congr (hl : Listed tail s nodes)
    (hlinked : Linked s'.clients.cells tail s'.clients.head nodes)
    (hkey : ∀ b, (s'.clients.data b).map key = (s.clients.data b).map key)
    (haccepted : s'.accepted = s.accepted) (htable : s'.table = s.table)
    (hhere : ∀ k, (s'.sockets k).here = (s.sockets k).here)
    (hreg : ∀ k, (s.sockets k).here = true →
      (s'.sockets k).registration = (s.sockets k).registration)
    (hgiven : s'.given = s.given) : Listed tail s' nodes := by
  refine ⟨hlinked, hl.nodup, haccepted ▸ hl.length_le, fun b => ?_, fun b d hd => ?_,
    fun b d hd => ?_, fun b d hd => ?_, fun f k hf => ?_, fun k hk => ?_, fun b d hd => ?_⟩
  · rw [hl.mem_iff]
    constructor
    · rintro ⟨d, hd⟩
      obtain ⟨d', hd', -⟩ := exists_of_key (hkey b) hd
      exact ⟨d', hd'⟩
    · rintro ⟨d, hd⟩
      obtain ⟨d', hd', -⟩ := exists_of_key (hkey b).symm hd
      exact ⟨d', hd'⟩
  · obtain ⟨d', hd', hconn, -⟩ := exists_of_key (hkey b).symm hd
    rw [haccepted, ← hconn]
    exact hl.conn_lt b d' hd'
  · obtain ⟨d', hd', hconn, hfd⟩ := exists_of_key (hkey b).symm hd
    rw [htable, ← hconn, ← hfd]
    exact hl.table b d' hd'
  · obtain ⟨d', hd', hconn, hfd⟩ := exists_of_key (hkey b).symm hd
    obtain ⟨hopen, hregistered⟩ := hl.socket b d' hd'
    rw [← hconn, ← hfd, ← hregistered, hhere]
    exact ⟨hopen, hreg d'.conn hopen⟩
  · rw [htable] at hf
    obtain ⟨b, d, hd, hconn, hfd⟩ := hl.owner f k hf
    obtain ⟨d', hd', hconn', hfd'⟩ := exists_of_key (hkey b) hd
    exact ⟨b, d', hd', hconn'.trans hconn, hfd'.trans hfd⟩
  · rw [hhere] at hk
    obtain ⟨b, d, hd, hconn⟩ := hl.present k hk
    obtain ⟨d', hd', hconn', -⟩ := exists_of_key (hkey b) hd
    exact ⟨b, d', hd', hconn'.trans hconn⟩
  · obtain ⟨d', hd', hconn, hfd⟩ := exists_of_key (hkey b).symm hd
    rw [hgiven, ← hconn, ← hfd]
    exact hl.given b d' hd'

/-- Two clients have different connections. -/
theorem conn_inj (hl : Listed tail s nodes) {a b : ℕ} {c d : Client}
    (hc : s.clients.data a = some c) (hd : s.clients.data b = some d) (h : c.conn = d.conn) :
    a = b := by
  have hsocket := (hl.socket a c hc).2
  rw [h, (hl.socket b d hd).2] at hsocket
  exact (congrArg Prod.snd (Option.some.inj hsocket)).symm

/-- Two clients have different descriptors. -/
theorem fd_inj (hl : Listed tail s nodes) {a b : ℕ} {c d : Client}
    (hc : s.clients.data a = some c) (hd : s.clients.data b = some d) (h : c.cd.fd = d.cd.fd) :
    a = b := by
  have htable := hl.table a c hc
  rw [h, hl.table b d hd] at htable
  exact hl.conn_inj hc hd (by simpa using htable.symm)

/-- A number that is free is not that of a client. -/
theorem fd_ne (hl : Listed tail s nodes) {a fd : ℕ} (hc : s.clients.data a = some c)
    (hfd : s.table fd = none) : c.cd.fd ≠ fd := by
  rintro rfl
  exact absurd ((hl.table a c hc).symm.trans hfd) (by simp)

theorem initial (sockfd epollfd : ℕ) (base : List ℕ) (vars : Vars) :
    Listed tail (State.initial tail sockfd epollfd base vars) [] where
  linked := rfl
  nodup := List.nodup_nil
  length_le := Nat.le_refl 0
  mem_iff := by simp [State.initial, Memory.data]
  conn_lt := by simp [State.initial, Memory.data]
  table := by simp [State.initial, Memory.data]
  socket := by simp [State.initial, Memory.data]
  owner fd k h := by
    simp only [State.initial] at h
    split_ifs at h <;> exact absurd h (by simp)
  present := by simp [State.initial]
  given := by simp [State.initial, Memory.data]

/-- A client is accepted and registered. -/
theorem enroll (hl : Listed tail s nodes) {fd a : ℕ} (hfd : s.table fd = none) (ha : a ≠ 0)
    (hcell : s.clients.cells a = none) (rest : List EventData) :
    Listed tail (s.enroll fd a true rest) (a :: nodes) := by
  have hfresh : s.clients.data a = none := by simp [Memory.data, hcell]
  have hdata := State.data_enroll hcell fd true rest
  refine ⟨linked_push hl.linked ha hcell _, List.nodup_cons.mpr ⟨fun hmem => ?_, hl.nodup⟩,
    Nat.succ_le_succ hl.length_le, fun b => ?_, fun b c hc => ?_, fun b c hc => ?_,
    fun b c hc => ?_, fun f k hf => ?_, fun k hk => ?_, fun b c hc => ?_⟩
  · obtain ⟨c, hc⟩ := (hl.mem_iff a).mp hmem
    exact absurd (hfresh.symm.trans hc) (by simp)
  · simp only [List.mem_cons, hl.mem_iff, hdata, exists_or, exists_and_left, exists_eq, and_true]
  · rcases (hdata b c).mp hc with ⟨-, rfl⟩ | hc
    · exact Nat.lt_succ_self _
    · exact Nat.lt_succ_of_lt (hl.conn_lt b c hc)
  · rcases (hdata b c).mp hc with ⟨-, rfl⟩ | hc
    · simp [State.enroll, newClient]
    · simp only [State.enroll, Function.update_of_ne (hl.fd_ne hc hfd)]
      exact hl.table b c hc
  · rcases (hdata b c).mp hc with ⟨rfl, rfl⟩ | hc
    · simp [State.enroll, newClient]
    · simp only [State.enroll, Function.update_of_ne (hl.conn_lt b c hc).ne]
      exact hl.socket b c hc
  · by_cases hffd : f = fd
    · subst hffd
      simp only [State.enroll, Function.update_self, Option.some.injEq, Object.socket.injEq] at hf
      exact ⟨a, _, (hdata a _).mpr (.inl ⟨rfl, rfl⟩), hf, rfl⟩
    · simp only [State.enroll, Function.update_of_ne hffd] at hf
      obtain ⟨b, c, hc, hconn, hcfd⟩ := hl.owner f k hf
      exact ⟨b, c, (hdata b c).mpr (.inr hc), hconn, hcfd⟩
  · by_cases hkn : k = s.accepted
    · exact ⟨a, _, (hdata a _).mpr (.inl ⟨rfl, rfl⟩), hkn.symm⟩
    · simp only [State.enroll, Function.update_of_ne hkn] at hk
      obtain ⟨b, c, hc, hconn⟩ := hl.present k hk
      exact ⟨b, c, (hdata b c).mpr (.inr hc), hconn⟩
  · rcases (hdata b c).mp hc with ⟨-, rfl⟩ | hc
    · simp [State.enroll, newClient]
    · simp only [State.enroll, Function.update_of_ne (hl.fd_ne hc hfd)]
      exact hl.given b c hc

/-- A client is kept. -/
theorem key_set (hc : s.clients.data p = some c) {cd : ClientData} (hfd : cd.fd = c.cd.fd)
    (b : ℕ) :
    ((s.clients.set p ⟨cd, c.conn⟩).data b).map key = (s.clients.data b).map key := by
  by_cases hb : b = p
  · subst hb
    rw [Memory.data_set_self hc, hc]
    simp [key, hfd]
  · rw [Memory.data_set_of_ne _ _ hb]

/-- `remove_client` has taken the client out of the list, and left the others. -/
theorem removed {own : Multiset ℕ} {first : Prop} (hl : Listed tail s nodes)
    (hc : s.clients.data p = some c) (h : TornDown s p c rest kept own first s') :
    Linked s'.clients.cells tail s'.clients.head (nodes.erase p) ∧ s'.clients.data p = none ∧
      ∀ b, b ≠ p → s'.clients.data b = s.clients.data b := by
  obtain ⟨m, hfound, hspec⟩ := remove_of_linked hl.linked hl.nodup ((hl.mem_iff p).mpr ⟨c, hc⟩)
  obtain rfl : m = s'.clients :=
    Removal.removed.inj ((hfound s.accepted hl.length_le).symm.trans h.removed)
  exact hspec

theorem data_tear {own : Multiset ℕ} {first : Prop} (hl : Listed tail s nodes)
    (hc : s.clients.data p = some c) (h : TornDown s p c rest kept own first s') (b : ℕ)
    (d : Client) : s'.clients.data b = some d ↔ b ≠ p ∧ s.clients.data b = some d := by
  obtain ⟨-, hnone, hdata⟩ := hl.removed hc h
  by_cases hb : b = p
  · subst hb
    simp [hnone]
  · simp [hdata b hb, hb]

/-- A client is torn down. -/
theorem tear {own : Multiset ℕ} {first : Prop} (hl : Listed tail s nodes)
    (hc : s.clients.data p = some c) (h : TornDown s p c rest kept own first s') :
    Listed tail s' (nodes.erase p) := by
  have hdata := hl.data_tear hc h
  -- a client that is left is another one, with another connection and another descriptor
  have hother : ∀ b d, s'.clients.data b = some d →
      s.clients.data b = some d ∧ d.conn ≠ c.conn ∧ d.cd.fd ≠ c.cd.fd := by
    intro b d hd
    obtain ⟨hb, hd'⟩ := (hdata b d).mp hd
    exact ⟨hd', fun h => hb (hl.conn_inj hd' hc h), fun h => hb (hl.fd_inj hd' hc h)⟩
  refine ⟨(hl.removed hc h).1, hl.nodup.erase p, ?_, fun b => ?_, fun b d hd => ?_,
    fun b d hd => ?_, fun b d hd => ?_, fun f k hf => ?_, fun k hk => ?_, fun b d hd => ?_⟩
  · rw [h.accepted]
    exact (List.length_erase_le).trans hl.length_le
  · simp only [hl.nodup.mem_erase_iff, hl.mem_iff, hdata, exists_and_left]
  · rw [h.accepted]
    exact hl.conn_lt b d (hother b d hd).1
  · obtain ⟨hd', -, hfd⟩ := hother b d hd
    have htable := hl.table b d hd'
    have hown : d.cd.fd ∉ own := fun hmem => by
      rw [h.fresh _ hmem] at htable
      exact absurd htable (by simp)
    rw [h.table, if_neg hfd, if_neg hown, htable]
  · obtain ⟨hd', hconn, -⟩ := hother b d hd
    rw [(h.others _ hconn).1, (h.others _ hconn).2]
    exact hl.socket b d hd'
  · rw [h.table] at hf
    split_ifs at hf with hfd hown
    · exact absurd hf (by simp)
    · obtain ⟨b, d, hd, hconn, hdfd⟩ := hl.owner f k hf
      have hb : b ≠ p := by
        rintro rfl
        rw [hc] at hd
        exact hfd (by rw [← hdfd, ← Option.some.inj hd])
      exact ⟨b, d, (hdata b d).mpr ⟨hb, hd⟩, hconn, hdfd⟩
  · have hkc : k ≠ c.conn := by
      rintro rfl
      exact absurd (h.here.symm.trans hk) (by simp)
    rw [(h.others k hkc).1] at hk
    obtain ⟨b, d, hd, rfl⟩ := hl.present k hk
    have hb : b ≠ p := by
      rintro rfl
      exact hkc (by rw [Option.some.inj (hd.symm.trans hc)])
    exact ⟨b, d, (hdata b d).mpr ⟨hb, hd⟩, rfl⟩
  · rw [h.given]
    exact hl.given b d (hother b d hd).1

/-- **A step is for one client at most**, and the others keep what they have. -/
theorem data_of_move (hl : Listed tail s nodes) (hm : Move sc s l s') {a : ℕ}
    (hc : s.clients.data a = some c) (ha : s.concerns l ≠ some a) :
    s'.clients.data a = some c := by
  cases hm with
  | waits | waitFails | acceptFails | dangles | releases => exact hc
  | overflows p d rest r env hbatch hd hadm hio =>
    have hap : a ≠ p := fun heq => ha (by simp [State.concerns, hbatch, heq])
    exact (Memory.data_set_of_ne _ _ hap).trans hc
  | accepts fd b added rest hbatch hfd hb hcell =>
    exact (State.data_enroll hcell fd added rest a c).mpr (.inr hc)
  | keeps p d cd rest r env hbatch hd hadm hio =>
    have hap : a ≠ p := fun heq => ha (by simp [State.concerns, hbatch, heq])
    exact (Memory.data_set_of_ne _ _ hap).trans hc
  | tears p d rest r env kept _ hbatch hd hadm hkeep hcorrupt htorn =>
    have hap : a ≠ p := fun heq => ha (by simp [State.concerns, hbatch, heq])
    exact (hl.data_tear hd htorn a c).mpr ⟨hap, hc⟩

/-- **One step keeps the clients in a list.** -/
theorem of_move (hl : Listed tail s nodes) (h : Move sc s l s') (hs' : s'.status = .running) :
    ∃ nodes', Listed tail s' nodes' := by
  cases h with
  | waits =>
    exact ⟨nodes, hl.congr hl.linked (fun _ => rfl) rfl rfl (fun _ => rfl) (fun _ _ => rfl) rfl⟩
  | waitFails => exact absurd hs' (by simp)
  | accepts fd a added rest hbatch hfd ha hcell =>
    cases added with
    | true => exact ⟨a :: nodes, hl.enroll hfd ha hcell rest⟩
    | false => exact absurd hs' (by simp [State.enroll])
  | acceptFails => exact absurd hs' (by simp)
  | dangles => exact absurd hs' (by simp)
  | overflows => exact absurd hs' (by simp)
  | keeps p c cd rest r env hbatch hc hadm hio =>
    exact ⟨nodes, hl.congr (linked_set hl.linked _ _) (key_set hc (fd_of_keep hio)) rfl rfl
      (fun _ => rfl) (fun _ _ => rfl) rfl⟩
  | tears p c rest r env kept _ hbatch hc hadm hkeep hcorrupt htorn =>
    exact ⟨nodes.erase p, hl.tear hc htorn⟩
  | releases k helse =>
    refine ⟨nodes, hl.congr hl.linked (fun _ => rfl) rfl rfl (fun k' => ?_) (fun k' hhere => ?_)
      rfl⟩
    · by_cases hk : k' = k
      · subst hk
        simp
      · simp [Function.update_of_ne hk]
    · by_cases hk : k' = k
      · subst hk
        simp [Socket.settle_registration, hhere]
      · simp [Function.update_of_ne hk]

end Listed

theorem listed_of_step (h : s.status = .running → ∃ nodes, Listed tail s nodes)
    (hs : step sc s l = some s') : s'.status = .running → ∃ nodes, Listed tail s' nodes := by
  obtain ⟨nodes, hl⟩ := h (status_of_step hs)
  exact hl.of_move (move_of_step hl hs)

/-- **As long as the loop goes on the clients are in the list.** -/
theorem listed_of_run {ls : List Label} (active sockfd epollfd : ℕ) (base : List ℕ) (vars : Vars)
    (h : Transition.run (step sc) (State.initial active sockfd epollfd base vars) ls = some t)
    (ht : t.status = .running) : ∃ nodes, Listed active t nodes :=
  Transition.run_invariant (fun _ _ _ hl hs => listed_of_step hl hs)
    (fun _ => ⟨[], .initial sockfd epollfd base vars⟩) h ht

end Loop
end Epoll
end BareHttp
