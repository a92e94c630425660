import BareHttp.Epoll.Clients
import BareHttp.Epoll.RequestBuffer

/-!
# The loop as a server of connections

`RequestBuffer` describes the server by its connections alone: a table by descriptor, with
accepts and events on clients that come in any order.  The loop of `epoll_server` is such a
server.  To every run of it that has not ended belongs a run of that one with the same
clients under their descriptors (`exists_server_of_run`), so what was shown for every state
of the server holds for every state of the loop: the list in memory, the batches and the
registrations only restrict which events come next.
-/

namespace BareHttp
namespace Epoll
namespace Loop

open PointerList Transition

variable {sc : ServerConf} {tail p : ℕ} {nodes : List ℕ} {c : Client} {s s' t : State}
  {rest : List EventData} {r : RecvResult} {env : Env} {kept : List ℕ} {l : Label} {S : Server}

/-- The server has the clients of the loop, each under its descriptor. -/
structure Shows (S : Server) (s : State) : Prop where
  corrupted : S.corrupted = false
  client : ∀ fd x, S.clients fd = some x →
    ∃ a c, s.clients.data a = some c ∧ c.cd = x.cd ∧ c.cd.fd = fd
  connection : ∀ a c, s.clients.data a = some c → ∃ x, S.clients c.cd.fd = some x ∧ x.cd = c.cd

namespace Shows

theorem initial (active sockfd epollfd : ℕ) (base : List ℕ) (vars : Vars) :
    Shows Server.initial (State.initial active sockfd epollfd base vars) where
  corrupted := rfl
  client := by simp [Server.initial]
  connection := by simp [State.initial, Memory.data]

/-- A client is accepted. -/
theorem accept (h : Shows S s) (hl : Listed tail s nodes) {fd a : ℕ} (hfd : s.table fd = none)
    (hcell : s.clients.cells a = none) (added : Bool) (rest : List EventData) :
    serverStep S (.accept fd) = some (S.set fd (some ⟨newClient fd, []⟩)) ∧
      Shows (S.set fd (some ⟨newClient fd, []⟩)) (s.enroll fd a added rest) := by
  have hnone : S.clients fd = none := by
    cases hx : S.clients fd with
    | none => rfl
    | some x =>
      obtain ⟨b, c, hc, -, heq⟩ := h.client fd x hx
      exact absurd heq (hl.fd_ne hc hfd)
  have hdata := State.data_enroll hcell fd added rest
  refine ⟨by simp [serverStep, h.corrupted, hnone], h.corrupted, fun f x hx => ?_,
    fun b c hc => ?_⟩
  · by_cases hf : f = fd
    · subst hf
      rw [Server.clients_set_self] at hx
      rw [← Option.some.inj hx]
      exact ⟨a, _, (hdata a _).mpr (.inl ⟨rfl, rfl⟩), rfl, rfl⟩
    · rw [Server.clients_set_of_ne S _ hf] at hx
      obtain ⟨b, c, hc, heq⟩ := h.client f x hx
      exact ⟨b, c, (hdata b c).mpr (.inr hc), heq⟩
  · rcases (hdata b c).mp hc with ⟨-, rfl⟩ | hc
    · exact ⟨_, Server.clients_set_self S fd _, rfl⟩
    · obtain ⟨x, hx, hcd⟩ := h.connection b c hc
      exact ⟨x, (Server.clients_set_of_ne S _ (hl.fd_ne hc hfd)).trans hx, hcd⟩

/-- A client is kept. -/
theorem keep (h : Shows S s) (hl : Listed tail s nodes) {cd : ClientData}
    (hc : s.clients.data p = some c) (hadm : Admissible c.cd r)
    (hio : clientIo c.cd r = .keep cd) :
    ∃ x, serverStep S (.io c.cd.fd r) = some (S.set c.cd.fd (some x)) ∧
      ∀ s', s'.clients = s.clients.set p ⟨cd, c.conn⟩ →
        Shows (S.set c.cd.fd (some x)) s' := by
  obtain ⟨x, hx, hcd⟩ := h.connection p c hc
  have hfd := fd_of_keep hio
  refine ⟨⟨cd, x.delivered ++ r.bytes⟩, ?_, fun s' hclients =>
    ⟨h.corrupted, fun f y hy => ?_, fun b d hd => ?_⟩⟩
  · simp [serverStep, h.corrupted, hx, hcd, hadm, hio]
  · rw [hclients]
    by_cases hf : f = c.cd.fd
    · subst hf
      rw [Server.clients_set_self] at hy
      rw [← Option.some.inj hy]
      exact ⟨p, _, Memory.data_set_self hc _, rfl, hfd⟩
    · rw [Server.clients_set_of_ne S _ hf] at hy
      obtain ⟨b, d, hd, heq, hdfd⟩ := h.client f y hy
      have hb : b ≠ p := by
        rintro rfl
        exact hf (by rw [← hdfd, Option.some.inj (hd.symm.trans hc)])
      exact ⟨b, d, (Memory.data_set_of_ne _ _ hb).trans hd, heq, hdfd⟩
  · rw [hclients] at hd
    by_cases hb : b = p
    · subst hb
      rw [← Option.some.inj ((Memory.data_set_self hc _).symm.trans hd), hfd]
      exact ⟨_, Server.clients_set_self S c.cd.fd _, rfl⟩
    · rw [Memory.data_set_of_ne _ _ hb] at hd
      obtain ⟨y, hy, heq⟩ := h.connection b d hd
      exact ⟨y, (Server.clients_set_of_ne S _ fun hf => hb (hl.fd_inj hd hc hf)).trans hy, heq⟩

/-- A client is torn down. -/
theorem tear {own : Multiset ℕ} {first : Prop} (h : Shows S s) (hl : Listed tail s nodes)
    (hc : s.clients.data p = some c) (hadm : Admissible c.cd r)
    (hkeep : ∀ cd, clientIo c.cd r ≠ .keep cd) (hcorrupt : clientIo c.cd r ≠ .corrupt)
    (htorn : TornDown s p c rest kept own first s') :
    serverStep S (.io c.cd.fd r) = some (S.set c.cd.fd none) ∧
      Shows (S.set c.cd.fd none) s' := by
  obtain ⟨x, hx, hcd⟩ := h.connection p c hc
  have hdata := hl.data_tear hc htorn
  refine ⟨?_, h.corrupted, fun f y hy => ?_, fun b d hd => ?_⟩
  · cases hio : clientIo c.cd r with
    | keep cd => exact absurd hio (hkeep cd)
    | corrupt => exact absurd hio hcorrupt
    | close cause => simp [serverStep, h.corrupted, hx, hcd, hadm, hio]
    | dispatch request => simp [serverStep, h.corrupted, hx, hcd, hadm, hio]
  · have hf : f ≠ c.cd.fd := by
      rintro rfl
      rw [Server.clients_set_self] at hy
      exact absurd hy (by simp)
    rw [Server.clients_set_of_ne S _ hf] at hy
    obtain ⟨b, d, hd, heq, hdfd⟩ := h.client f y hy
    have hb : b ≠ p := by
      rintro rfl
      exact hf (by rw [← hdfd, Option.some.inj (hd.symm.trans hc)])
    exact ⟨b, d, (hdata b d).mpr ⟨hb, hd⟩, heq, hdfd⟩
  · obtain ⟨hb, hd'⟩ := (hdata b d).mp hd
    obtain ⟨y, hy, heq⟩ := h.connection b d hd'
    exact ⟨y, (Server.clients_set_of_ne S _ fun hf => hb (hl.fd_inj hd' hc hf)).trans hy, heq⟩

/-- **One step of the loop is at most one of the server.** -/
theorem of_move (h : Shows S s) (hl : Listed tail s nodes) (hm : Move sc s l s')
    (hs' : s'.status = .running) :
    ∃ es S', run serverStep S es = some S' ∧ Shows S' s' := by
  cases hm with
  | waits | releases => exact ⟨[], S, rfl, h.corrupted, h.client, h.connection⟩
  | accepts fd a added rest hbatch hfd ha hcell =>
    obtain ⟨hstep, hshows⟩ := h.accept hl hfd hcell added rest
    exact ⟨[.accept fd], _, run_cons hstep [], hshows⟩
  | keeps p c cd rest r env hbatch hc hadm hio =>
    obtain ⟨x, hstep, hshows⟩ := h.keep hl hc hadm hio
    exact ⟨[.io c.cd.fd r], _, run_cons hstep [], hshows _ rfl⟩
  | tears p c rest r env kept _ hbatch hc hadm hkeep hcorrupt htorn =>
    obtain ⟨hstep, hshows⟩ := h.tear hl hc hadm hkeep hcorrupt htorn
    exact ⟨[.io c.cd.fd r], _, run_cons hstep [], hshows⟩
  | waitFails | acceptFails | dangles | overflows => exact absurd hs' (by simp)

end Shows

/-- The server can come to have the clients of the loop. -/
def Simulated (s : State) : Prop :=
  ∃ es S, run serverStep Server.initial es = some S ∧ Shows S s

/-- The padding of the header array is clear in every client, as it is in the server. -/
theorem Simulated.pad_eq (h : Simulated s) (hc : s.clients.data p = some c) :
    c.cd.httpRq.headersPad = 0 := by
  obtain ⟨es, S, hrun, hshows⟩ := h
  have hshape : ServerShape S :=
    run_invariant (fun _ _ _ => serverShape_step) serverShape_initial hrun
  obtain ⟨x, hx, hcd⟩ := hshows.connection p c hc
  rw [← hcd]
  exact (hshape _ x hx).pad_eq

/-- What holds of the clients as long as the loop goes on. -/
def Healthy (tail : ℕ) (s : State) : Prop :=
  s.status = .running → (∃ nodes, Listed tail s nodes) ∧ Simulated s

theorem healthy_initial (sockfd epollfd : ℕ) (base : List ℕ) (vars : Vars) :
    Healthy tail (State.initial tail sockfd epollfd base vars) :=
  fun _ => ⟨⟨[], .initial sockfd epollfd base vars⟩, [], Server.initial, rfl,
    .initial tail sockfd epollfd base vars⟩

theorem healthy_of_step (h : Healthy tail s) (hs : step sc s l = some s') : Healthy tail s' := by
  intro hs'
  obtain ⟨⟨nodes, hl⟩, es, S, hrun, hshows⟩ := h (status_of_step hs)
  have hm := move_of_step hl hs
  obtain ⟨es', S', hrun', hshows'⟩ := hshows.of_move hl hm hs'
  exact ⟨hl.of_move hm hs', es ++ es', S', (run_append hrun es').trans hrun', hshows'⟩

/-- **Every run of the loop that has not ended is one of the server.** -/
theorem exists_server_of_run {ls : List Label} (active sockfd epollfd : ℕ) (base : List ℕ)
    (vars : Vars) (h : run (step sc) (State.initial active sockfd epollfd base vars) ls = some t)
    (ht : t.status = .running) :
    ∃ es S, run serverStep Server.initial es = some S ∧ Shows S t := by
  have hhealthy : Healthy active t := run_invariant (fun _ _ _ hj hs => healthy_of_step hj hs)
    (healthy_initial sockfd epollfd base vars) h
  exact (hhealthy ht).2

end Loop
end Epoll
end BareHttp
