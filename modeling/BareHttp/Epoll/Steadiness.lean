import BareHttp.Epoll.Registration
import BareHttp.Epoll.Simulation

/-!
# What stops the loop

A client should not be able to stop the server, or to disturb another client.  The second
part holds of every step: an event changes its own client and no other (`data_of_move`).
The first does not.  The loop returns where `accept` fails, whatever the error, and where
`EPOLL_CTL_ADD` fails; nothing is known of it behind a `recv` outside `rq` or an event for a
client that has been freed.  A run is steady exactly if none of these happens
(`steady_iff_tolerable`).

On a non-blocking socket `accept` fails where the connection it was reported for has been
aborted in the meantime, and where the process has no descriptor left.  Both are in the
hands of the clients.
-/

namespace BareHttp
namespace Epoll
namespace Loop

open PointerList Transition

variable {sc : ServerConf} {tail : ℕ} {nodes : List ℕ} {s s' t : State} {l : Label}
  {ls : List Label}

/-- **The step disturbs nobody**: the loop goes on, and every client it is not for keeps its
state and has its descriptor open. -/
def Steady (sc : ServerConf) (s : State) (l : Label) : Prop :=
  ∀ s', step sc s l = some s' → s'.status = .running ∧
    ∀ a c, s.clients.data a = some c → s.concerns l ≠ some a →
      s'.clients.data a = some c ∧ s'.table c.cd.fd = some (.socket c.conn) ∧
      (s'.sockets c.conn).here = true

/-- What `recv` stored is inside `rq`. -/
def Fits (cd : ClientData) : RecvResult → Prop
  | .data bytes => cd.rqSize + bytes.length ≤ maxBuffr
  | _ => True

/-- **What the loop can bear**: `accept` and `EPOLL_CTL_ADD` succeed, and an event is for a
client that has not been freed and whose buffer holds what is received. -/
def Tolerable (s : State) : Label → Prop
  | .accept _ _ added => added = true
  | .acceptFails => False
  | .io r _ _ => ∃ c ∈ s.next, Fits c.cd r
  | _ => True

instance (cd : ClientData) : (r : RecvResult) → Decidable (Fits cd r)
  | .data bytes => inferInstanceAs (Decidable (cd.rqSize + bytes.length ≤ maxBuffr))
  | .closed | .wouldBlock | .error => .isTrue trivial

instance (s : State) : (l : Label) → Decidable (Tolerable s l)
  | .accept _ _ added => inferInstanceAs (Decidable (added = true))
  | .acceptFails => .isFalse id
  | .io r _ _ => inferInstanceAs (Decidable (∃ c ∈ s.next, Fits c.cd r))
  | .wait _ | .waitFails | .release _ => .isTrue trivial

theorem fits_iff {cd : ClientData} {r : RecvResult} (hpad : cd.httpRq.headersPad = 0) :
    Fits cd r ↔ clientIo cd r ≠ .corrupt := by
  constructor
  · intro hfits hcorrupt
    obtain ⟨bytes, rfl, hlt⟩ := clientIo_eq_corrupt hpad hcorrupt
    exact Nat.not_le.mpr hlt hfits
  · intro hne
    cases r with
    | data bytes =>
      refine Nat.le_of_not_lt fun hlt => hne ?_
      simp only [clientIo, if_pos hlt]
    | closed | wouldBlock | error => exact trivial

/-- **The loop goes on exactly if the step is one it can bear.** -/
theorem status_of_move (hsim : Simulated s) (hs : s.status = .running) (hm : Move sc s l s')
    (hwait : l ≠ .waitFails) : s'.status = .running ↔ Tolerable s l := by
  cases hm with
  | waits | releases => simp [Tolerable, hs]
  | waitFails => exact absurd rfl hwait
  | accepts fd a added rest hbatch hfd ha hcell =>
    cases added <;> simp [Tolerable, State.enroll, hs]
  | acceptFails => simp [Tolerable]
  | dangles p rest r env kept hbatch hc => simp [Tolerable, State.next_eq hbatch, hc]
  | overflows p c rest r env hbatch hc hadm hio =>
    simp [Tolerable, State.next_eq hbatch, hc, fits_iff (hsim.pad_eq hc), hio]
  | keeps p c cd rest r env hbatch hc hadm hio =>
    simp [Tolerable, State.next_eq hbatch, hc, fits_iff (hsim.pad_eq hc), hio, hs]
  | tears p c rest r env kept _ hbatch hc hadm hkeep hcorrupt htorn =>
    simp [Tolerable, State.next_eq hbatch, hc, fits_iff (hsim.pad_eq hc), hcorrupt, htorn.status,
      hs]

/-- **One step disturbs nobody exactly if the loop can bear it.** -/
theorem steady_iff_of_step (hl : Listed tail s nodes) (hsim : Simulated s)
    (hstep : step sc s l = some s') (hwait : l ≠ .waitFails) : Steady sc s l ↔ Tolerable s l := by
  have hm := move_of_step hl hstep
  have hstatus := status_of_move hsim (status_of_step hstep) hm hwait
  constructor
  · intro hsteady
    exact hstatus.mp (hsteady s' hstep).1
  · intro htolerable s'' hstep'
    obtain rfl : s' = s'' := Option.some.inj (hstep.symm.trans hstep')
    have hrunning := hstatus.mpr htolerable
    obtain ⟨nodes', hl'⟩ := hl.of_move hm hrunning
    refine ⟨hrunning, fun a c hc hother => ?_⟩
    have hdata := hl.data_of_move hm hc hother
    exact ⟨hdata, hl'.table a c hdata, (hl'.socket a c hdata).1⟩

/-- **A run in which `epoll_wait` does not fail disturbs nobody exactly if the loop can bear
all its steps.** -/
theorem steady_iff_tolerable (active sockfd epollfd : ℕ) (base : List ℕ) (vars : Vars)
    (hwait : .waitFails ∉ ls)
    (h : run (step sc) (State.initial active sockfd epollfd base vars) ls = some t) :
    Along (step sc) (Steady sc) (State.initial active sockfd epollfd base vars) ls ↔
      Along (step sc) Tolerable (State.initial active sockfd epollfd base vars) ls := by
  refine Along.congr_of_run (fun _ _ _ hj hs => healthy_of_step hj hs) ?_
    (healthy_initial sockfd epollfd base vars) h
  intro s l hl s' hhealthy hs
  obtain ⟨⟨nodes, hlisted⟩, hsim⟩ := hhealthy (status_of_step hs)
  exact steady_iff_of_step hlisted hsim hs fun heq => hwait (heq ▸ hl)

/-- The loop is still going on at the end of a steady run. -/
theorem running_of_steady (hs : s.status = .running) (hsteady : Along (step sc) (Steady sc) s ls)
    (h : run (step sc) s ls = some t) : t.status = .running := by
  have hkeep : ∀ s l s', s.status = .running → Steady sc s l → step sc s l = some s' →
      s'.status = .running := fun _ _ s' _ hstep hl => (hstep s' hl).1
  exact run_invariant_along hkeep hs hsteady h

theorem scriptLeaves_steady :
    Along (step sampleConf) Tolerable started (scriptLeaves [1]) ∧
    Along (step sampleConf) (Steady sampleConf) started (scriptLeaves [1]) := by
  have htolerable : Along (step sampleConf) Tolerable started (scriptLeaves [1]) := by
    decide +kernel
  have hrun : (run (step sampleConf) started (scriptLeaves [1])).isSome := by decide +kernel
  obtain ⟨t, ht⟩ := Option.isSome_iff_exists.mp hrun
  exact ⟨htolerable, (steady_iff_tolerable 0 5 6 [0, 1, 2, 3, 4] ⟨0, 0, 0, 0, .incomplete⟩
    (by simp [scriptLeaves]) ht).mpr htolerable⟩

/-- A client is connected.  Another one aborts its connection before it is accepted. -/
def connectionAborted : List Label :=
  [.wait [none], .accept 7 100 true, .wait [none], .acceptFails]

theorem connectionAborted_not_steady :
    .waitFails ∉ connectionAborted ∧
    (∃ t, run (step sampleConf) started connectionAborted = some t ∧ t.status = .returned) ∧
    ¬ Along (step sampleConf) (Steady sampleConf) started connectionAborted := by
  have hrun : (run (step sampleConf) started connectionAborted).map State.status =
      some .returned := by decide +kernel
  obtain ⟨t, ht, hstatus⟩ := Option.map_eq_some_iff.mp hrun
  refine ⟨by simp [connectionAborted], ⟨t, ht, hstatus⟩, fun hsteady => ?_⟩
  exact absurd ((running_of_steady rfl hsteady ht).symm.trans hstatus) (by simp)

end Loop
end Epoll
end BareHttp
