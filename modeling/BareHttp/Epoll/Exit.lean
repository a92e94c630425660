import BareHttp.Epoll.Table
import BareHttp.Epoll.Balance

/-!
# The ways out of the loop

`epoll_server` leaves its loop in three places: `epoll_wait` has failed or was interrupted,
`accept` has failed, `EPOLL_CTL_ADD` has failed.  Each has a list of calls of its own behind
it, written out by hand, and only the third one frees the clients.  The lists are kept here
as they stand in `src/server.c`, with what their calls do to the table of descriptors and to
the clients; the array of events and the configuration are memory the loop does not have.

`free_clients` follows `next` until it is null.  The variable `active_clients` is never
initialised, so what ends the list is whatever it held before the first client was added.
The walk takes every client that was added, closes and frees it once, and then goes on with
that value (`Held.drop`, `freeClients_eq`): it ends there if the value was null, and
otherwise reads a `client_data` where there is none.

None of the three lists closes the listening socket.
-/

namespace BareHttp
namespace Epoll
namespace Loop

open PointerList Transition

variable {sc : ServerConf} {tail p a : ℕ} {nodes : List ℕ} {s s' t u : State} {l : Label}
  {ls : List Label}

/-- The descriptors `epoll_server` and `main` keep for the server itself. -/
structure Handles where
  sockfd : ℕ
  epollfd : ℕ
  logfd : ℕ
  distinct : [sockfd, epollfd, logfd].Nodup

/-- The places where the loop is left. -/
inductive Exit where
  | wait
  | accept
  | register
  deriving DecidableEq

/-- The calls that are made there. -/
inductive CleanUp where
  | closeEpoll
  | freeEvents
  | logsDestroy
  | freeClients
  | freeServerConf
  deriving DecidableEq

/-- The lists of calls, in their order. -/
def Exit.cleanUp : Exit → List CleanUp
  | .wait => [.closeEpoll, .freeEvents, .logsDestroy, .freeServerConf]
  | .accept => [.closeEpoll, .logsDestroy, .freeEvents, .freeServerConf]
  | .register => [.closeEpoll, .logsDestroy, .freeEvents, .freeClients, .freeServerConf]

/-- The steps that lead to them. -/
def Label.exit : Label → Option Exit
  | .waitFails => some .wait
  | .acceptFails => some .accept
  | .accept _ _ false => some .register
  | _ => none

namespace State

/-- The descriptor of the client at `a` is closed, and its cell is freed. -/
def dropClient (s : State) (a : ℕ) (c : Client) : State :=
  { s.closeFd c.cd.fd with
    clients := s.clients.free a
    history := s.history ++ ((s.given c.cd.fd).map .closed).toList ++ [.freed c.conn] }

/-- `free_clients` from the pointer `p` on.  A pointer that is neither null nor that of a
client is followed all the same, and nothing is known behind it.  Every turn frees a cell, so
there are no more turns than clients were added. -/
def freeClients : ℕ → ℕ → State → State
  | 0, _, s => { s with status := .dangling }
  | fuel + 1, p, s =>
    if p = 0 then s
    else
      match s.clients.cells p with
      | none => { s with status := .dangling }
      | some cell => freeClients fuel cell.next (s.dropClient p cell.data)

/-- One of the calls. -/
def cleanUp (h : Handles) (s : State) : CleanUp → State
  | .closeEpoll => s.closeFd h.epollfd
  | .freeEvents => s
  | .logsDestroy => s.closeFd h.logfd
  | .freeClients => s.freeClients (s.accepted + 1) s.clients.head
  | .freeServerConf => s

/-- The loop is left. -/
def leave (h : Handles) (e : Exit) (s : State) : State := e.cleanUp.foldl (cleanUp h) s

end State

/-- The clients of `s` have been closed and freed in `t`, each of them once. -/
structure ClientsReleased (s t : State) : Prop where
  closed : ∀ a c, s.clients.data a = some c → t.table c.cd.fd = none
  freed : ∀ a c, s.clients.data a = some c → t.clients.data a = none
  once : ∀ a c, s.clients.data a = some c → Finished c.conn (t.record c.conn)

/-- **What a way out of the loop is to do**, from the state `s` of the failure on. -/
structure Released (h : Handles) (s t : State) : Prop where
  clients : ClientsReleased s t
  listener : t.table h.sockfd = none
  epoll : t.table h.epollfd = none
  /-- No other pointer was followed. -/
  followed : t.status ≠ .dangling

/-! ## `free_clients` -/

/-- The clients that are left when `free_clients` has come to the pointer `p`. -/
structure Held (tail : ℕ) (s : State) (p : ℕ) (nodes : List ℕ) : Prop where
  linked : Linked s.clients.cells tail p nodes
  nodup : nodes.Nodup
  mem_iff : ∀ a, a ∈ nodes ↔ ∃ c, s.clients.data a = some c
  conn_lt : ∀ a c, s.clients.data a = some c → c.conn < s.accepted
  conn_inj : ∀ a b c d, s.clients.data a = some c → s.clients.data b = some d →
    c.conn = d.conn → a = b
  table : ∀ a c, s.clients.data a = some c → s.table c.cd.fd = some (.socket c.conn)
  owner : ∀ fd k, s.table fd = some (.socket k) →
    ∃ a c, s.clients.data a = some c ∧ c.conn = k ∧ c.cd.fd = fd
  given : ∀ a c, s.clients.data a = some c → s.given c.cd.fd = some c.conn
  recorded : Recorded s

/-- It begins with the clients of the loop. -/
theorem Listed.held (hl : Listed tail u nodes) (hclients : s.clients = u.clients)
    (htable : s.table = u.table) (haccepted : s.accepted = u.accepted) (hgiven : s.given = u.given)
    (hr : Recorded s) : Held tail s s.clients.head nodes := by
  refine ⟨?_, hl.nodup, ?_, ?_, ?_, ?_, ?_, ?_, hr⟩
  · rw [hclients]
    exact hl.linked
  · rw [hclients]
    exact hl.mem_iff
  · rw [hclients, haccepted]
    exact hl.conn_lt
  · rw [hclients]
    exact fun a b c d => hl.conn_inj
  · rw [hclients, htable]
    exact hl.table
  · rw [hclients, htable]
    exact hl.owner
  · rw [hclients, hgiven]
    exact hl.given

namespace State

theorem data_dropClient (s : State) (a : ℕ) (c : Client) (b : ℕ) (d : Client) :
    (s.dropClient a c).clients.data b = some d ↔ b ≠ a ∧ s.clients.data b = some d := by
  by_cases hb : b = a
  · subst hb
    simp [dropClient]
  · simp [dropClient, Memory.data_free_of_ne _ hb, hb]

theorem table_dropClient (s : State) (a : ℕ) (c : Client) :
    (s.dropClient a c).table = Function.update s.table c.cd.fd none := by
  rw [dropClient, closeFd_eq]

@[simp] theorem accepted_dropClient (s : State) (a : ℕ) (c : Client) :
    (s.dropClient a c).accepted = s.accepted := by
  rw [dropClient, closeFd_eq]

@[simp] theorem given_dropClient (s : State) (a : ℕ) (c : Client) :
    (s.dropClient a c).given = s.given := by
  rw [dropClient, closeFd_eq]

@[simp] theorem status_dropClient (s : State) (a : ℕ) (c : Client) :
    (s.dropClient a c).status = s.status := by
  rw [dropClient, closeFd_eq]

end State

/-- A turn of the walk. -/
theorem Held.drop {cell : Cell Client} (h : Held tail s p (p :: nodes))
    (hcell : s.clients.cells p = some cell) :
    Held tail (s.dropClient p cell.data) cell.next nodes := by
  have hdata := s.data_dropClient p cell.data
  have hc : s.clients.data p = some cell.data := by rw [Memory.data, hcell, Option.map_some]
  obtain ⟨-, -, cell', hcell', hrest⟩ := h.linked
  obtain rfl : cell = cell' := Option.some.inj (hcell.symm.trans hcell')
  obtain ⟨hp, hnodup⟩ := List.nodup_cons.mp h.nodup
  have hinj : ∀ b d, s.clients.data b = some d → d.conn = cell.data.conn → b = p :=
    fun b d hd => h.conn_inj b p d cell.data hd hc
  -- two clients with the same descriptor have the same connection
  have hfd : ∀ b d, s.clients.data b = some d → b ≠ p → d.cd.fd ≠ cell.data.cd.fd := by
    intro b d hd hb heq
    have htable := (h.table b d hd).symm.trans (heq ▸ h.table p cell.data hc)
    exact hb (hinj b d hd (by simpa using htable))
  refine ⟨hrest.congr fun b hb => ?_, hnodup, fun b => ?_, fun b d hd => ?_,
    fun b b' d d' hd hd' => ?_, fun b d hd => ?_, fun fd k hk => ?_, fun b d hd => ?_, ?_⟩
  · have hbp : b ≠ p := fun heq => hp (heq ▸ hb)
    simp [State.dropClient, Memory.free, Function.update_of_ne hbp]
  · simp only [hdata, exists_and_left, ← h.mem_iff, List.mem_cons]
    exact ⟨fun hb => ⟨fun heq => hp (heq ▸ hb), .inr hb⟩, fun hb => hb.2.resolve_left hb.1⟩
  · rw [State.accepted_dropClient]
    exact h.conn_lt b d ((hdata b d).mp hd).2
  · exact h.conn_inj b b' d d' ((hdata b d).mp hd).2 ((hdata b' d').mp hd').2
  · obtain ⟨hb, hd'⟩ := (hdata b d).mp hd
    rw [State.table_dropClient, Function.update_of_ne (hfd b d hd' hb)]
    exact h.table b d hd'
  · rw [State.table_dropClient] at hk
    by_cases hfdc : fd = cell.data.cd.fd
    · simp [hfdc] at hk
    · rw [Function.update_of_ne hfdc] at hk
      obtain ⟨b, d, hd, hconn, hdfd⟩ := h.owner fd k hk
      refine ⟨b, d, (hdata b d).mpr ⟨?_, hd⟩, hconn, hdfd⟩
      rintro rfl
      exact hfdc (by rw [← hdfd, Option.some.inj (hd.symm.trans hc)])
  · rw [State.given_dropClient]
    exact h.given b d ((hdata b d).mp hd).2
  · have hhistory : (s.dropClient p cell.data).history =
        s.history ++ [.closed cell.data.conn, .freed cell.data.conn] := by
      simp [State.dropClient, h.given p _ hc]
    refine h.recorded.finish hc (h.conn_lt p _ hc) hinj hdata (s.accepted_dropClient p _) hhistory
      (by simp [Access.conn]) ?_
    rintro xs ⟨n, rfl⟩
    exact ⟨n, .inl rfl⟩

/-- What the walk leaves of the table: clients are closed, and nothing else. -/
def Closing (s t : State) : Prop :=
  ∀ fd, t.table fd = s.table fd ∨ (t.table fd = none ∧ ∃ k, s.table fd = some (.socket k))

theorem Held.closing {c : Client} (h : Held tail s p nodes) (hc : s.clients.data a = some c) :
    Closing s (s.dropClient a c) := by
  intro fd
  rw [State.table_dropClient]
  by_cases hfd : fd = c.cd.fd
  · exact .inr ⟨by simp [hfd], c.conn, by rw [hfd, h.table a c hc]⟩
  · exact .inl (Function.update_of_ne hfd _ _)

theorem Closing.trans (hst : Closing s t) (htu : Closing t u) : Closing s u := by
  intro fd
  rcases htu fd with heq | ⟨hnone, k, hk⟩
  · rw [heq]
    exact hst fd
  · rcases hst fd with heq | ⟨hnone', -⟩
    · exact .inr ⟨hnone, k, heq ▸ hk⟩
    · exact absurd (hnone'.symm.trans hk) (by simp)

/-- **The walk comes to the first value of `active_clients`**, with no client left. -/
theorem Held.freeClients_eq (h : Held tail s p nodes) (fuel : ℕ) :
    ∃ t, s.freeClients (nodes.length + fuel) p = t.freeClients fuel tail ∧
      Held tail t tail [] ∧ Closing s t ∧ t.status = s.status ∧ t.accepted = s.accepted := by
  induction nodes generalizing s p with
  | nil =>
    obtain rfl : p = tail := h.linked
    exact ⟨s, by rw [List.length_nil, Nat.zero_add], h, fun _ => .inl rfl, rfl, rfl⟩
  | cons b nodes ih =>
    obtain ⟨rfl, hne, cell, hcell, -⟩ := h.linked
    have hc : s.clients.data p = some cell.data := by rw [Memory.data, hcell, Option.map_some]
    obtain ⟨t, ht, hheld, hclosing, hstatus, haccepted⟩ := ih (h.drop hcell)
    refine ⟨t, ?_, hheld, (h.closing hc).trans hclosing, ?_, ?_⟩
    · rw [← ht, List.length_cons, Nat.add_right_comm]
      simp only [State.freeClients, if_neg hne, hcell]
    · rw [hstatus, State.status_dropClient]
    · rw [haccepted, State.accepted_dropClient]

/-- **`free_clients`.** -/
theorem Held.freeClients_spec (h : Held tail s s.clients.head nodes)
    (hlength : nodes.length ≤ s.accepted) :
    ∃ t, s.freeClients (s.accepted + 1) s.clients.head =
        (if tail = 0 then t else { t with status := .dangling }) ∧
      Held tail t tail [] ∧ Closing s t ∧ t.status = s.status ∧ t.accepted = s.accepted := by
  obtain ⟨fuel, hfuel⟩ : ∃ fuel, s.accepted + 1 = nodes.length + (fuel + 1) :=
    ⟨s.accepted - nodes.length, by omega⟩
  obtain ⟨t, ht, hheld, hrest⟩ := h.freeClients_eq (fuel + 1)
  refine ⟨t, ?_, hheld, hrest⟩
  rw [hfuel, ht, State.freeClients]
  split
  · rfl
  · -- no cell is allocated any more, so the value is not the address of one
    have hnone : t.clients.cells tail = none := by
      by_contra hcell
      obtain ⟨cell, hcell⟩ := Option.ne_none_iff_exists'.mp hcell
      exact absurd ((hheld.mem_iff tail).mpr ⟨cell.data, by simp [Memory.data, hcell]⟩) (by simp)
    rw [hnone]

/-- The descriptors of the server are closed without regard to the clients. -/
theorem Held.closeFd (h : Held tail s p nodes) {fd : ℕ}
    (hfd : ∀ k, s.table fd ≠ some (.socket k)) : Held tail (s.closeFd fd) p nodes := by
  have hne : ∀ {f k}, s.table f = some (.socket k) → f ≠ fd := by
    rintro f k hf rfl
    exact hfd k hf
  rw [State.closeFd_eq]
  refine ⟨h.linked, h.nodup, h.mem_iff, h.conn_lt, h.conn_inj, fun b d hd => ?_, fun f k hf => ?_,
    h.given, h.recorded.congr rfl rfl rfl⟩
  · have htable := h.table b d hd
    simpa only [Function.update_of_ne (hne htable)] using htable
  · by_cases heq : f = fd
    · simp [heq] at hf
    · exact h.owner f k (by simpa only [Function.update_of_ne heq] using hf)

/-! ## The three ways out -/

/-- The clients and the descriptors as long as the loop goes on. -/
def Standing (tail : ℕ) (start : ℕ → Option Object) (s : State) : Prop :=
  s.status = .running → (∃ nodes, Listed tail s nodes) ∧ Traced start s ∧ Recorded s

theorem Standing.of_step {start : ℕ → Option Object} (h : Standing tail start s)
    (hstart : ∀ fd k, start fd ≠ some (.socket k)) (hs : step sc s l = some s') :
    Standing tail start s' := by
  obtain ⟨⟨nodes, hl⟩, htraced, hrecorded⟩ := h (status_of_step hs)
  have hm := move_of_step hl hs
  exact fun hrunning => ⟨hl.of_move hm hrunning, traced_of_move hstart htraced hl hm,
    hrecorded.of_move hl hm hrunning⟩

/-- **The clients when a call has failed.**  The one for whom `EPOLL_CTL_ADD` failed is in the
list already. -/
theorem held_of_exit {e : Exit} (hl : Listed tail s nodes) (hr : Recorded s)
    (hm : Move sc s l t) (he : l.exit = some e) :
    ∃ nodes', Held tail t t.clients.head nodes' ∧ nodes'.length ≤ t.accepted ∧
      t.status = .returned := by
  cases hm with
  | waitFails hbatch =>
    exact ⟨nodes, hl.held rfl rfl rfl rfl (hr.congr rfl rfl rfl), hl.length_le, rfl⟩
  | acceptFails rest hbatch =>
    exact ⟨nodes, hl.held rfl rfl rfl rfl (hr.congr rfl rfl rfl), hl.length_le, rfl⟩
  | accepts fd a added rest hbatch hfd ha hcell =>
    cases added with
    | true => simp [Label.exit] at he
    | false =>
      have hl' := hl.enroll hfd ha hcell rest
      exact ⟨a :: nodes, hl'.held rfl rfl rfl rfl (hr.enroll hcell rest false), hl'.length_le, rfl⟩
  | waits | dangles | overflows | keeps | tears | releases => simp [Label.exit] at he

/-- What every list does: the descriptors of `epoll` and of the log are closed. -/
def State.closeOwn (h : Handles) (s : State) : State := (s.closeFd h.epollfd).closeFd h.logfd

namespace State

theorem leave_wait (h : Handles) (s : State) : s.leave h .wait = s.closeOwn h := rfl

theorem leave_accept (h : Handles) (s : State) : s.leave h .accept = s.closeOwn h := rfl

theorem leave_register (h : Handles) (s : State) :
    s.leave h .register =
      (s.closeOwn h).freeClients ((s.closeOwn h).accepted + 1) (s.closeOwn h).clients.head := rfl

theorem closeOwn_eq (h : Handles) (s : State) :
    s.closeOwn h =
      { s with
        table := Function.update (Function.update s.table h.epollfd none) h.logfd none
        sockets := (s.closeOwn h).sockets } := by
  rw [closeOwn, closeFd_eq, closeFd_eq s]

end State

/-- The table at the start of the loop. -/
theorem table_initial (h : Handles) (active : ℕ) (base : List ℕ) (vars : Vars) :
    let start := (State.initial active h.sockfd h.epollfd (h.logfd :: base) vars).table
    start h.sockfd = some .listener ∧ start h.epollfd = some .epoll ∧
      start h.logfd = some .startup ∧ ∀ fd k, start fd ≠ some (.socket k) := by
  obtain ⟨⟨hse, hsl⟩, hel⟩ : (h.sockfd ≠ h.epollfd ∧ h.sockfd ≠ h.logfd) ∧
      h.epollfd ≠ h.logfd := by
    simpa using h.distinct
  refine ⟨by simp [State.initial], by simp [State.initial, hse.symm],
    by simp [State.initial, hsl.symm, hel.symm], fun fd k => ?_⟩
  simp only [State.initial]
  split_ifs <;> simp

/-- What was open at the start still is. -/
theorem Traced.eq_of_start {start : ℕ → Option Object} {o : Object} {fd : ℕ}
    (h : Traced start s) (hstart : start fd = some o) : s.table fd = some o := by
  rcases h fd with heq | ⟨hnone, -⟩
  · rw [heq, hstart]
  · exact absurd (hnone.symm.trans hstart) (by simp)

/-- The clients, when the descriptors of the server have been closed. -/
theorem Held.closeOwn (h : Handles) (hheld : Held tail s p nodes)
    (hepoll : s.table h.epollfd = some .epoll) (hlog : s.table h.logfd = some .startup) :
    Held tail (s.closeOwn h) p nodes := by
  have hfirst : Held tail (s.closeFd h.epollfd) p nodes := hheld.closeFd (by simp [hepoll])
  refine hfirst.closeFd fun k hk => ?_
  rw [State.closeFd_eq] at hk
  by_cases heq : h.logfd = h.epollfd
  · simp [heq] at hk
  · exact absurd ((Function.update_of_ne heq _ _).symm.trans hk) (by simp [hlog])

/-- **The third way out releases the clients.** -/
theorem clientsReleased_of_held {v w : State} (hheld : Held tail v p nodes) (hclosing : Closing v w)
    (hw : Held tail w tail []) (haccepted : w.accepted = v.accepted) : ClientsReleased v w := by
  have hempty : ∀ b d, w.clients.data b ≠ some d :=
    fun b d hd => absurd ((hw.mem_iff b).mpr ⟨d, hd⟩) (by simp)
  refine ⟨fun b d hd => ?_, fun b d _ => ?_, fun b d hd => ?_⟩
  · rcases hclosing d.cd.fd with heq | ⟨hnone, -⟩
    · -- a descriptor that were still open would be that of a client
      obtain ⟨b', d', hd', -⟩ := hw.owner d.cd.fd d.conn (heq.trans (hheld.table b d hd))
      exact absurd hd' (hempty b' d')
    · exact hnone
  · exact Option.eq_none_iff_forall_ne_some.mpr (hempty b)
  · exact hw.recorded.finished d.conn (haccepted ▸ hheld.conn_lt b d hd)
      fun b' d' hd' => absurd hd' (hempty b' d')

/-- The table when the descriptors of the server have been closed. -/
theorem table_closeOwn (h : Handles) (hlisten : s.table h.sockfd = some .listener) :
    (s.closeOwn h).table h.sockfd = some .listener ∧ (s.closeOwn h).table h.epollfd = none := by
  obtain ⟨⟨hse, hsl⟩, hel⟩ : (h.sockfd ≠ h.epollfd ∧ h.sockfd ≠ h.logfd) ∧
      h.epollfd ≠ h.logfd := by
    simpa using h.distinct
  have htable : (s.closeOwn h).table =
      Function.update (Function.update s.table h.epollfd none) h.logfd none := by
    rw [State.closeOwn_eq]
  rw [htable]
  exact ⟨by rw [Function.update_of_ne hsl, Function.update_of_ne hse, hlisten],
    by rw [Function.update_of_ne hel, Function.update_self]⟩

/-- **Two of the lists leave the clients as they are.** -/
theorem clientsReleased_closeOwn_iff (h : Handles) :
    ClientsReleased s (s.closeOwn h) ↔ ∀ a, s.clients.data a = none := by
  have hclients : (s.closeOwn h).clients = s.clients := by rw [State.closeOwn_eq]
  constructor
  · intro hrel a
    cases hc : s.clients.data a with
    | none => rfl
    | some c => exact absurd (hclients ▸ hrel.freed a c hc) (by simp [hc])
  · intro hnone
    exact ⟨fun a c hc => absurd hc (by simp [hnone]), fun a c hc => absurd hc (by simp [hnone]),
      fun a c hc => absurd hc (by simp [hnone])⟩

/-- **The third one frees them**, and goes on with the first value of `active_clients`. -/
theorem leave_register_spec (h : Handles) (hheld : Held tail s s.clients.head nodes)
    (hlength : nodes.length ≤ s.accepted) (hepoll : s.table h.epollfd = some .epoll)
    (hlog : s.table h.logfd = some .startup) :
    ∃ t, s.leave h .register = (if tail = 0 then t else { t with status := .dangling }) ∧
      ClientsReleased s t ∧ Closing (s.closeOwn h) t ∧ t.status = s.status := by
  have hown := s.closeOwn_eq h
  have hclients : (s.closeOwn h).clients = s.clients := by rw [hown]
  have hheld' : Held tail (s.closeOwn h) (s.closeOwn h).clients.head nodes := by
    rw [hclients]
    exact hheld.closeOwn h hepoll hlog
  obtain ⟨t, ht, hempty, hclosing, hstatus, haccepted⟩ :=
    hheld'.freeClients_spec (by rw [hown]; exact hlength)
  have hrel := clientsReleased_of_held hheld' hclosing hempty haccepted
  exact ⟨t, (State.leave_register h s).trans ht,
    ⟨hclients ▸ hrel.closed, hclients ▸ hrel.freed, hclients ▸ hrel.once⟩, hclosing,
    by rw [hstatus, hown]⟩

/-- **What each way out does.**  The listening socket stays open.  The clients are released
where there are none, or `EPOLL_CTL_ADD` has failed; and there the value that
`active_clients` had at the start is followed. -/
theorem leave_spec (h : Handles) {e : Exit} (hheld : Held tail s s.clients.head nodes)
    (hlength : nodes.length ≤ s.accepted) (hstatus : s.status = .returned)
    (hlisten : s.table h.sockfd = some .listener) (hepoll : s.table h.epollfd = some .epoll)
    (hlog : s.table h.logfd = some .startup) :
    (s.leave h e).table h.sockfd = some .listener ∧ (s.leave h e).table h.epollfd = none ∧
      (ClientsReleased s (s.leave h e) ↔ e = .register ∨ ∀ a, s.clients.data a = none) ∧
      ((s.leave h e).status = .dangling ↔ e = .register ∧ tail ≠ 0) := by
  obtain ⟨hsock, hclosed⟩ := table_closeOwn h hlisten
  have hkept := clientsReleased_closeOwn_iff (s := s) h
  have hreturned : (s.closeOwn h).status ≠ .dangling := by
    rw [State.closeOwn_eq]
    simp [hstatus]
  cases e with
  | wait =>
    rw [State.leave_wait]
    exact ⟨hsock, hclosed, by simpa using hkept, by simpa using hreturned⟩
  | accept =>
    rw [State.leave_accept]
    exact ⟨hsock, hclosed, by simpa using hkept, by simpa using hreturned⟩
  | register =>
    obtain ⟨t, ht, hrel, hclosing, hstat⟩ := leave_register_spec h hheld hlength hepoll hlog
    have htsock : t.table h.sockfd = some .listener := by
      rcases hclosing h.sockfd with heq | ⟨-, k, hk⟩
      · rw [heq, hsock]
      · exact absurd (hsock.symm.trans hk) (by simp)
    have htepoll : t.table h.epollfd = none := by
      rcases hclosing h.epollfd with heq | ⟨hnone, -⟩
      · rw [heq, hclosed]
      · exact hnone
    rw [ht]
    by_cases htail : tail = 0
    · rw [if_pos htail]
      exact ⟨htsock, htepoll, iff_of_true hrel (.inl rfl), by simp [hstat, hstatus, htail]⟩
    · rw [if_neg htail]
      exact ⟨htsock, htepoll, iff_of_true ⟨hrel.closed, hrel.freed, hrel.once⟩ (.inl rfl),
        by simp [htail]⟩

/-- **No way out of the loop releases everything**: whatever happened before, and whatever
was on the stack, the listening socket stays open behind it. -/
theorem not_released_of_exit (h : Handles) (active : ℕ) (base : List ℕ) (vars : Vars) {e : Exit}
    (hrun : run (step sc) (State.initial active h.sockfd h.epollfd (h.logfd :: base) vars) ls =
      some s) (hs : step sc s l = some t) (he : l.exit = some e) :
    ¬ Released h t (t.leave h e) ∧
      (t.leave h e).table h.sockfd = some .listener ∧ (t.leave h e).table h.epollfd = none ∧
      (ClientsReleased t (t.leave h e) ↔ e = .register ∨ ∀ a, t.clients.data a = none) ∧
      ((t.leave h e).status = .dangling ↔ e = .register ∧ active ≠ 0) := by
  obtain ⟨hlisten, hepoll, hlog, hstart⟩ := table_initial h active base vars
  have hstanding : Standing active _ s := run_invariant (fun _ _ _ hi hs => hi.of_step hstart hs)
    (fun _ => ⟨⟨[], .initial _ _ _ vars⟩, fun _ => .inl rfl, .initial _ _ _ vars⟩) hrun
  obtain ⟨⟨nodes, hl⟩, htraced, hrecorded⟩ := hstanding (status_of_step hs)
  have hm := move_of_step hl hs
  have htraced' := traced_of_move hstart htraced hl hm
  obtain ⟨nodes', hheld, hlength, hstatus⟩ := held_of_exit hl hrecorded hm he
  have hspec := leave_spec h (e := e) hheld hlength hstatus (htraced'.eq_of_start hlisten)
    (htraced'.eq_of_start hepoll) (htraced'.eq_of_start hlog)
  exact ⟨fun hrel => absurd (hrel.listener.symm.trans hspec.1) (by simp), hspec⟩

/-- The descriptors of a server that has just been started, with its log on 4. -/
def startedHandles : Handles := ⟨5, 6, 4, by decide⟩

/-- The variables before the loop. -/
def startedVars : Vars := ⟨0, 0, 0, 0, .incomplete⟩

/-- A client has been accepted, and another one is accepted for whom `EPOLL_CTL_ADD` fails.
The variable `active_clients` held the number 48879. -/
theorem addFails_not_released :
    ∃ s t, run (step sampleConf) (State.initial 48879 5 6 [4, 0, 1, 2, 3] startedVars)
        [.wait [none], .accept 7 100 true, .wait [none]] = some s ∧
      step sampleConf s (.accept 8 200 false) = some t ∧
      ¬ Released startedHandles t (t.leave startedHandles .register) ∧
      (t.leave startedHandles .register).status = .dangling := by
  have hrun : (run (step sampleConf) (State.initial 48879 5 6 [4, 0, 1, 2, 3] startedVars)
      [.wait [none], .accept 7 100 true, .wait [none]]).isSome = true := by decide +kernel
  obtain ⟨s, hs⟩ := Option.isSome_iff_exists.mp hrun
  have hstep : (run (step sampleConf) (State.initial 48879 5 6 [4, 0, 1, 2, 3] startedVars)
      ([.wait [none], .accept 7 100 true, .wait [none]] ++ [.accept 8 200 false])).isSome =
        true := by decide +kernel
  obtain ⟨t, ht⟩ := Option.isSome_iff_exists.mp hstep
  rw [run_append hs] at ht
  obtain ⟨t', ht', hnil⟩ := run_cons_eq_some ht
  obtain ⟨hnot, -, -, -, hdangling⟩ := not_released_of_exit startedHandles 48879 [0, 1, 2, 3]
    startedVars hs ht' (e := .register) rfl
  exact ⟨s, t', hs, ht', hnot, hdangling.mpr ⟨rfl, by decide⟩⟩

/-- The signal finds the server waiting, with one client. -/
theorem interrupted_not_released :
    ∃ t, run (step sampleConf) (State.initial 0 5 6 [4, 0, 1, 2, 3] startedVars)
        [.wait [none], .accept 7 100 true, .waitFails] = some t ∧
      ¬ Released startedHandles t (t.leave startedHandles .wait) := by
  have hrun : (run (step sampleConf) (State.initial 0 5 6 [4, 0, 1, 2, 3] startedVars)
      [.wait [none], .accept 7 100 true, .waitFails]).map
        (fun t => ((t.leave startedHandles .wait).table 5,
          ((t.leave startedHandles .wait).table 7))) =
      some (some .listener, some (.socket 0)) := by decide +kernel
  obtain ⟨t, ht, heq⟩ := Option.map_eq_some_iff.mp hrun
  exact ⟨t, ht, fun hrel => absurd (hrel.listener.symm.trans (Prod.mk.inj heq).1) (by simp)⟩

end Loop
end Epoll
end BareHttp
