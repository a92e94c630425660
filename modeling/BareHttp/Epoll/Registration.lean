import BareHttp.Epoll.Answer
import BareHttp.Epoll.Clients

/-!
# Stale registrations

An event carries the pointer its socket was registered with.  It must be the pointer to a
client that is still in the list.  The loop sees to that with `EPOLL_CTL_DEL`, but in six of
the seven branches it makes the call behind the `close`, where it fails.  The registration
then goes with the descriptor only if no other process has a copy of it; and a script
inherits the sockets of all clients.

If every client is torn down while no other process has a copy of its socket, or in the one
branch that makes the calls in the right order, every event that is pending carries the
pointer to a client (`fresh_of_unshared`).  If not, `epoll_wait` reports events for a client
that has been freed (`scriptKeepsCopy_not_fresh`).
-/

namespace BareHttp
namespace Epoll
namespace Loop

open PointerList Transition

variable {sc : ServerConf} {tail p : ℕ} {nodes : List ℕ} {s s' t : State} {l : Label}
  {ls : List Label}

/-- The client of the event at hand. -/
def State.next (s : State) : Option Client :=
  match s.batch with
  | .client p :: _ => s.clients.data p
  | _ => none

theorem State.next_eq {rest : List EventData} (h : s.batch = .client p :: rest) :
    s.next = s.clients.data p := by
  simp only [next, h]

/-- The client stays. -/
def stays : ClientOutcome → Bool
  | .keep _ => true
  | _ => false

/-- The events that are pending carry pointers to clients. -/
def State.Fresh (s : State) : Prop :=
  ∀ a, .client a ∈ s.batch → ∃ c, s.clients.data a = some c

/-- **A client is torn down** where no other process has a copy of its socket, or where
`EPOLL_CTL_DEL` is called while its descriptor is open. -/
def Unshared (sc : ServerConf) (s : State) : Label → Prop
  | .io r env kept =>
    ∀ c ∈ s.next, stays (clientIo c.cd r) = false →
      ((s.sockets c.conn).elsewhere = false ∧ c.conn ∉ kept) ∨ DelFirst sc c r env
  | _ => True

instance (sc : ServerConf) (c : Client) (r : RecvResult) (env : Env) :
    Decidable (DelFirst sc c r env) :=
  match h : clientIo c.cd r with
  | .dispatch request =>
    decidable_of_iff (c.cd.state = .readingHeaders ∧ .shutdown ∉ answerCalls sc request env)
      (by simp [DelFirst, h])
  | .keep _ => .isFalse (by simp [DelFirst, h])
  | .close _ => .isFalse (by simp [DelFirst, h])
  | .corrupt => .isFalse (by simp [DelFirst, h])

instance (sc : ServerConf) (s : State) : (l : Label) → Decidable (Unshared sc s l)
  | .io r env kept => inferInstanceAs (Decidable (∀ c ∈ s.next,
      stays (clientIo c.cd r) = false →
        ((s.sockets c.conn).elsewhere = false ∧ c.conn ∉ kept) ∨ DelFirst sc c r env))
  | .wait _ | .waitFails | .accept .. | .acceptFails | .release _ => .isTrue trivial

/-- Every registration is that of a client, and no two pending events are for the same. -/
structure Current (s : State) : Prop where
  registered : ∀ k fd a, (s.sockets k).registration = some (fd, a) →
    ∃ c, s.clients.data a = some c ∧ c.conn = k
  nodup : s.batch.Nodup
  fresh : s.Fresh

namespace Current

/-- The events behind the one at hand. -/
theorem rest (h : Current s) {d : EventData} {ds : List EventData} (hbatch : s.batch = d :: ds) :
    d ∉ ds ∧ ds.Nodup ∧ ∀ a, .client a ∈ ds → ∃ c, s.clients.data a = some c := by
  have hnodup := h.nodup
  rw [hbatch] at hnodup
  obtain ⟨hnot, hrest⟩ := List.nodup_cons.mp hnodup
  exact ⟨hnot, hrest, fun a ha => h.fresh a (hbatch ▸ List.mem_cons_of_mem d ha)⟩

theorem initial (sockfd epollfd : ℕ) (base : List ℕ) (vars : Vars) :
    Current (State.initial tail sockfd epollfd base vars) where
  registered := by simp [State.initial]
  nodup := List.nodup_nil
  fresh := by simp [State.Fresh, State.initial]

/-- What `epoll_wait` reports. -/
theorem wait (h : Current s) {evs : List (Option ℕ)} (hnodup : evs.Nodup) :
    Current { s with batch := evs.filterMap s.eventData } := by
  have hpointer : ∀ e a, s.eventData e = some (.client a) →
      ∃ k, e = some k ∧ ∃ c, s.clients.data a = some c ∧ c.conn = k := by
    intro e a he
    cases e with
    | none => exact absurd he (by simp [State.eventData])
    | some k =>
      obtain ⟨⟨fd, b⟩, hreg, hb⟩ := Option.map_eq_some_iff.mp he
      obtain rfl : b = a := EventData.client.inj hb
      exact ⟨k, rfl, h.registered k fd b hreg⟩
  refine ⟨h.registered, hnodup.filterMap fun e e' d hd hd' => ?_, fun a ha => ?_⟩
  · -- different sockets are registered with different pointers
    cases d with
    | listener =>
      have hnone : ∀ e, s.eventData e = some .listener → e = none := by
        intro e he
        cases e with
        | none => rfl
        | some k =>
          obtain ⟨_, _, habs⟩ := Option.map_eq_some_iff.mp he
          exact absurd habs (by simp)
      rw [hnone e hd, hnone e' hd']
    | client a =>
      obtain ⟨k, rfl, c, hc, hk⟩ := hpointer e a hd
      obtain ⟨k', rfl, c', hc', hk'⟩ := hpointer e' a hd'
      rw [← hk, ← hk', Option.some.inj (hc.symm.trans hc')]
  · obtain ⟨e, -, he⟩ := List.mem_filterMap.mp ha
    obtain ⟨-, -, c, hc, -⟩ := hpointer e a he
    exact ⟨c, hc⟩

/-- A client is accepted. -/
theorem enroll (h : Current s) {fd a : ℕ} {rest : List EventData}
    (hbatch : s.batch = .listener :: rest) (hcell : s.clients.cells a = none) (added : Bool) :
    Current (s.enroll fd a added rest) := by
  have hdata := State.data_enroll hcell fd added rest
  obtain ⟨-, hnodup, hfresh⟩ := h.rest hbatch
  refine ⟨fun k fd' b hreg => ?_, hnodup, fun b hb => ?_⟩
  · by_cases hk : k = s.accepted
    · subst hk
      cases added with
      | false => exact absurd hreg (by simp [State.enroll])
      | true =>
        simp only [State.enroll, Function.update_self, if_true, Option.some.injEq,
          Prod.mk.injEq] at hreg
        rw [← hreg.2]
        exact ⟨_, (hdata a _).mpr (.inl ⟨rfl, rfl⟩), rfl⟩
    · simp only [State.enroll, Function.update_of_ne hk] at hreg
      obtain ⟨c, hc, hconn⟩ := h.registered k fd' b hreg
      exact ⟨c, (hdata b c).mpr (.inr hc), hconn⟩
  · obtain ⟨c, hc⟩ := hfresh b hb
    exact ⟨c, (hdata b c).mpr (.inr hc)⟩

/-- A client is used. -/
theorem during (h : Current s) {c : Client} {rest : List EventData}
    (hbatch : s.batch = .client p :: rest) (hc : s.clients.data p = some c) (cd : ClientData)
    (hclients : s'.clients = s.clients.set p ⟨cd, c.conn⟩) (hsockets : s'.sockets = s.sockets)
    (hrest : s'.batch = rest) : Current s' := by
  obtain ⟨-, hnodup, hfresh⟩ := h.rest hbatch
  have hdata : ∀ a d, s.clients.data a = some d →
      ∃ d', s'.clients.data a = some d' ∧ d'.conn = d.conn := by
    intro a d hd
    rw [hclients]
    by_cases ha : a = p
    · subst ha
      exact ⟨_, Memory.data_set_self hc _, by rw [Option.some.inj (hd.symm.trans hc)]⟩
    · exact ⟨d, (Memory.data_set_of_ne _ _ ha).trans hd, rfl⟩
  refine ⟨fun k fd a hreg => ?_, hrest ▸ hnodup, fun a ha => ?_⟩
  · rw [hsockets] at hreg
    obtain ⟨d, hd, hconn⟩ := h.registered k fd a hreg
    obtain ⟨d', hd', hconn'⟩ := hdata a d hd
    exact ⟨d', hd', hconn'.trans hconn⟩
  · rw [hrest] at ha
    obtain ⟨d, hd⟩ := hfresh a ha
    obtain ⟨d', hd', -⟩ := hdata a d hd
    exact ⟨d', hd'⟩

/-- A client is torn down. -/
theorem tear {c : Client} {rest : List EventData} {kept : List ℕ} {own : Multiset ℕ}
    {first : Prop} (h : Current s) (hl : Listed tail s nodes)
    (hbatch : s.batch = .client p :: rest) (hc : s.clients.data p = some c)
    (htorn : TornDown s p c rest kept own first s')
    (hguard : ((s.sockets c.conn).elsewhere = false ∧ c.conn ∉ kept) ∨ first) : Current s' := by
  have hdata := hl.data_tear hc htorn
  obtain ⟨hnot, hnodup, hfresh⟩ := h.rest hbatch
  have hreg : (s'.sockets c.conn).registration = none := by
    refine htorn.registration (hguard.symm.imp_right fun hfree => ?_)
    by_contra helse
    rcases htorn.elsewhere c.conn (by simpa using helse) with hold | hkept
    · exact absurd (hfree.1.symm.trans hold) (by simp)
    · exact hfree.2 hkept
  refine ⟨fun k fd a hk => ?_, htorn.batch ▸ hnodup, fun a ha => ?_⟩
  · have hkc : k ≠ c.conn := by
      rintro rfl
      exact absurd (hreg.symm.trans hk) (by simp)
    rw [(htorn.others k hkc).2] at hk
    obtain ⟨d, hd, rfl⟩ := h.registered k fd a hk
    have hap : a ≠ p := by
      rintro rfl
      exact hkc (by rw [Option.some.inj (hd.symm.trans hc)])
    exact ⟨d, (hdata a d).mpr ⟨hap, hd⟩, rfl⟩
  · rw [htorn.batch] at ha
    obtain ⟨d, hd⟩ := hfresh a ha
    have hap : a ≠ p := by
      rintro rfl
      exact hnot ha
    exact ⟨d, (hdata a d).mpr ⟨hap, hd⟩⟩

/-- **One step.** -/
theorem of_move (h : Current s) (hl : Listed tail s nodes) (hm : Move sc s l s')
    (hguard : Unshared sc s l) : Current s' := by
  cases hm with
  | waits evs hbatch hnodup hevs => exact h.wait hnodup
  | waitFails => exact ⟨h.registered, h.nodup, h.fresh⟩
  | accepts fd a added rest hbatch hfd ha hcell => exact h.enroll hbatch hcell added
  | acceptFails => exact ⟨h.registered, h.nodup, h.fresh⟩
  | dangles p rest r env kept hbatch hc =>
    obtain ⟨-, hnodup, hfresh⟩ := h.rest hbatch
    exact ⟨h.registered, hnodup, hfresh⟩
  | overflows p c rest r env hbatch hc hadm hio cd => exact h.during hbatch hc cd rfl rfl rfl
  | keeps p c cd rest r env hbatch hc hadm hio => exact h.during hbatch hc cd rfl rfl rfl
  | tears p c rest r env kept _ hbatch hc hadm hkeep hcorrupt htorn =>
    refine h.tear hl hbatch hc htorn (hguard c ?_ ?_)
    · rw [State.next_eq hbatch, hc]
      rfl
    · cases hio : clientIo c.cd r with
      | keep cd => exact absurd hio (hkeep cd)
      | close | dispatch | corrupt => rfl
  | releases k helse =>
    refine ⟨fun k' fd a hreg => h.registered k' fd a ?_, h.nodup, h.fresh⟩
    by_cases hk : k' = k
    · subst hk
      simp only [Function.update_self, Socket.settle_registration] at hreg
      split at hreg
      · exact hreg
      · exact absurd hreg (by simp)
    · simpa only [Function.update_of_ne hk] using hreg

/-- The event at hand is for a client. -/
theorem not_dangling (h : Current s) (hm : Move sc s l s') (hs : s.status = .running) :
    s'.status ≠ .dangling := by
  cases hm with
  | dangles p rest r env kept hbatch hc =>
    obtain ⟨c, hc'⟩ := h.fresh p (hbatch ▸ List.mem_cons_self)
    exact absurd (hc.symm.trans hc') (by simp)
  | accepts fd a added rest hbatch hfd ha hcell => cases added <;> simp [State.enroll, hs]
  | tears p c rest r env kept _ hbatch hc hadm hkeep hcorrupt htorn => simp [htorn.status, hs]
  | waits | keeps | releases => simp [State.during, hs]
  | waitFails | acceptFails | overflows => simp

end Current

/-- What holds in every state. -/
def Tracked (tail : ℕ) (s : State) : Prop :=
  Current s ∧ (s.status = .running → ∃ nodes, Listed tail s nodes)

theorem tracked_of_step (h : Tracked tail s) (hguard : Unshared sc s l)
    (hs : step sc s l = some s') : Tracked tail s' := by
  obtain ⟨nodes, hl⟩ := h.2 (status_of_step hs)
  exact ⟨h.1.of_move hl (move_of_step hl hs) hguard, listed_of_step h.2 hs⟩

theorem tracked_initial (sockfd epollfd : ℕ) (base : List ℕ) (vars : Vars) :
    Tracked tail (State.initial tail sockfd epollfd base vars) :=
  ⟨.initial sockfd epollfd base vars, fun _ => ⟨[], .initial sockfd epollfd base vars⟩⟩

/-- **Every event carries the pointer to a client**, in every run in which clients are torn
down as `Unshared` says. -/
theorem fresh_of_unshared (active sockfd epollfd : ℕ) (base : List ℕ) (vars : Vars)
    (hguard : Along (step sc) (Unshared sc) (State.initial active sockfd epollfd base vars) ls) :
    Throughout (step sc) State.Fresh (State.initial active sockfd epollfd base vars) ls := by
  intro ms ns t hsplit ht
  subst hsplit
  have htracked : Tracked active t := run_invariant_along
    (fun _ _ _ h hguard hs => tracked_of_step h hguard hs)
    (tracked_initial sockfd epollfd base vars) hguard.of_append ht
  exact htracked.1.fresh

/-- A server that has just been started. -/
def started : State := State.initial 0 5 6 [0, 1, 2, 3, 4] ⟨0, 0, 0, 0, .incomplete⟩

/-- A file or a script that is opened as descriptor 9. -/
def plainEnv : Env := Env.calm ⟨9, ascii "body"⟩ (ascii "Thu, 01 Jan 1970 00:00:00 GMT")

/-- Two clients are accepted, and the first one asks for a script that leaves copies of the
sockets `kept` behind. -/
def scriptLeaves (kept : List ℕ) : List Label :=
  [.wait [none], .accept 7 100 true, .wait [none], .accept 8 200 true, .wait [some 0],
    .io (.data (ascii "GET /a.py HTTP/1.1\r\n\r\n")) plainEnv kept]

/-- The second client closes its connection behind the script's end. -/
theorem releasedCopy_fresh :
    Along (step sampleConf) (Unshared sampleConf) started
      (scriptLeaves [1] ++ [.release 1, .wait [some 1], .io .closed plainEnv []]) ∧
    Throughout (step sampleConf) State.Fresh started
      (scriptLeaves [1] ++ [.release 1, .wait [some 1], .io .closed plainEnv []]) := by
  have hguard : Along (step sampleConf) (Unshared sampleConf) started
      (scriptLeaves [1] ++ [.release 1, .wait [some 1], .io .closed plainEnv []]) := by
    decide +kernel
  exact ⟨hguard, fresh_of_unshared 0 5 6 [0, 1, 2, 3, 4] ⟨0, 0, 0, 0, .incomplete⟩ hguard⟩

/-- The second client closes its connection while the script's child has a copy of its
socket.  It is freed, and `epoll_wait` reports it again. -/
def scriptKeepsCopy : List Label :=
  scriptLeaves [1] ++ [.wait [some 1], .io .closed plainEnv [], .wait [some 1]]

theorem scriptKeepsCopy_not_fresh :
    ¬ Throughout (step sampleConf) State.Fresh started scriptKeepsCopy := by
  have hrun : (run (step sampleConf) started scriptKeepsCopy).map
      (fun t => (t.batch, (t.clients.data 200).isSome)) = some ([.client 200], false) := by
    decide +kernel
  obtain ⟨t, ht, heq⟩ := Option.map_eq_some_iff.mp hrun
  obtain ⟨hbatch, hdata⟩ := Prod.mk.inj heq
  intro hfresh
  obtain ⟨c, hc⟩ := hfresh scriptKeepsCopy [] t (List.append_nil _).symm ht 200
    (by rw [hbatch]; exact List.mem_cons_self)
  exact absurd hdata (by simp [hc])

end Loop
end Epoll
end BareHttp
