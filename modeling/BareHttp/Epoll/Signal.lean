import BareHttp.Epoll.Exit
import BareHttp.Epoll.Steadiness

/-!
# The signal and the loop

`SIGINT` does two things: its handler sets `sigint`, and an `epoll_wait` that is blocked
returns with an error.  Only the second one makes the loop end.  The variable itself is read
in one place, behind a failed `epoll_wait`, and there it decides what is returned and not
whether.

So it matters where the signal finds the server.  The state of the loop is put together with
whether `epoll_wait` has been called and with the variable (`State`), and the signal is a step
of its own, possible between any two others.  If it comes while `epoll_wait` waits, the loop
is left.  If it comes before that call, or in the middle of a batch, the variable is set and
the next `epoll_wait` waits as if nothing had happened: the server goes on with every batch
that comes until a call fails.

What is asked is that behind the signal the server finishes at most the batch it has and
leaves the loop (`Heeds`).  A run does so exactly if every signal finds it in `epoll_wait` or
in a batch that ends the loop (`heeds_iff`).
-/

namespace BareHttp
namespace Epoll
namespace Signal

open Transition
open Loop (Exit Healthy Listed Move Tolerable)

/-- The loop, whether `epoll_wait` has been called and has not returned, the variable
`sigint`, and what `epoll_server` has returned. -/
structure State where
  loop : Loop.State
  waiting : Bool
  sigint : Bool
  ret : Option Int

/-- The call of `epoll_wait`, the signal, and the steps of the loop, of which the first two
are the return of that call. -/
inductive Label where
  | block
  | signal
  | loop (l : Loop.Label)

/-- The label is a return of `epoll_wait`. -/
def returnsWait : Loop.Label → Bool
  | .wait _ | .waitFails => true
  | _ => false

/-- What is returned behind the three lists of calls. -/
def returnValue (sigint : Bool) : Exit → Int
  | .wait => if sigint then 0 else -1
  | .accept => -1
  | .register => -1

/-- The state in front of the loop. -/
def State.initial (loop : Loop.State) : State := ⟨loop, false, false, none⟩

/-- A step of the loop. -/
def State.advance (sc : ServerConf) (s : State) (l : Loop.Label) : Option State :=
  (Loop.step sc s.loop l).map fun t =>
    { s with
      loop := t
      waiting := if returnsWait l then false else s.waiting
      ret :=
        match l.exit with
        | some e => some (returnValue s.sigint e)
        | none => s.ret }

/-- One step. -/
def step (sc : ServerConf) (s : State) : Label → Option State
  | .block =>
    if s.loop.status = .running ∧ s.loop.batch = [] ∧ s.waiting = false then
      some { s with waiting := true }
    else none
  | .signal =>
    if s.loop.status = .running then
      if s.waiting then State.advance sc { s with sigint := true } .waitFails
      else some { s with sigint := true }
    else none
  | .loop l => if returnsWait l → s.waiting then s.advance sc l else none

variable {sc : ServerConf} {tail : ℕ} {s s' t : State} {l : Label} {ls : List Label}

/-- **The signal is heeded**: in every state behind it the server has nothing but events of
the batch it had, and has left the loop when there are none. -/
def Heeds (sc : ServerConf) (s₀ : State) (ls : List Label) : Prop :=
  ∀ ms ns os s t, ls = ms ++ (ns ++ os) → run (step sc) s₀ ms = some s → s.sigint = true →
    run (step sc) s ns = some t →
      t.loop.batch <:+ s.loop.batch ∧ (t.loop.status = .running → t.loop.batch ≠ [])

/-- A server that has seen the signal and still runs has a batch. -/
def Heeded (s : State) : Prop :=
  s.sigint = true → s.loop.status = .running → s.loop.batch ≠ []

/-- The step takes an event out of the batch. -/
def consumes : Loop.Label → Bool
  | .accept _ _ _ | .acceptFails | .io _ _ _ => true
  | _ => false

/-- **Where the signal may come**: while `epoll_wait` waits, or in a batch whose last event,
if the server comes to it, ends the loop. -/
def Timely (s : State) : Label → Prop
  | .block => True
  | .signal => s.waiting = true ∨ s.loop.batch ≠ []
  | .loop l => s.sigint = true → consumes l = true → s.loop.batch.tail = [] → ¬ Tolerable s.loop l

instance (s : State) : (l : Label) → Decidable (Timely s l)
  | .block => .isTrue trivial
  | .signal => inferInstanceAs (Decidable (s.waiting = true ∨ s.loop.batch ≠ []))
  | .loop l =>
    inferInstanceAs (Decidable (s.sigint = true → consumes l = true → s.loop.batch.tail = [] →
      ¬ Tolerable s.loop l))

/-! ## One step -/

theorem advance_eq_some {l : Loop.Label} (h : s.advance sc l = some s') :
    Loop.step sc s.loop l = some s'.loop ∧ s'.sigint = s.sigint := by
  obtain ⟨t, ht, rfl⟩ := Option.map_eq_some_iff.mp h
  exact ⟨ht, rfl⟩

theorem waitFails_eq_some {s t : Loop.State} (h : Loop.step sc s .waitFails = some t) :
    s.batch = [] ∧ t = { s with status := .returned } := by
  cases hbatch : s.batch with
  | nil => simpa [Loop.step, Loop.status_of_step h, hbatch, eq_comm] using h
  | cons e es => simp [Loop.step, Loop.status_of_step h, hbatch] at h

/-- What a step can do to the loop and to the variable. -/
theorem step_cases (h : step sc s l = some s') :
    (l = .block ∧ s.loop.batch = [] ∧ s'.loop = s.loop ∧ s'.sigint = s.sigint) ∨
    (l = .signal ∧ s.waiting = true ∧ s'.loop.status = .returned ∧ s'.loop.batch = s.loop.batch ∧
      s'.sigint = true ∧ s'.ret = some 0) ∨
    (l = .signal ∧ s.waiting = false ∧ s.loop.status = .running ∧ s'.loop = s.loop ∧
      s'.sigint = true) ∨
    (∃ m, l = .loop m ∧ Loop.step sc s.loop m = some s'.loop ∧ s'.sigint = s.sigint) := by
  cases l with
  | block =>
    obtain ⟨⟨-, hbatch, -⟩, rfl⟩ : (s.loop.status = .running ∧ s.loop.batch = [] ∧
        s.waiting = false) ∧ { s with waiting := true } = s' := by
      simpa [step] using h
    exact .inl ⟨rfl, hbatch, rfl, rfl⟩
  | signal =>
    simp only [step] at h
    split at h
    · next hrunning =>
      split at h
      · next hwaiting =>
        obtain ⟨t, ht, rfl⟩ := Option.map_eq_some_iff.mp h
        obtain ⟨-, rfl⟩ := waitFails_eq_some ht
        exact .inr (.inl ⟨rfl, hwaiting, rfl, rfl, rfl, rfl⟩)
      · next hwaiting =>
        rw [← Option.some.inj h]
        exact .inr (.inr (.inl ⟨rfl, by simpa using hwaiting, hrunning, rfl, rfl⟩))
    · exact absurd h (by simp)
  | loop m =>
    simp only [step] at h
    split at h
    · exact .inr (.inr (.inr ⟨m, rfl, advance_eq_some h⟩))
    · exact absurd h (by simp)

/-- **A step of the loop in the middle of a batch** goes on with it. -/
theorem batch_of_move {s s' : Loop.State} {l : Loop.Label} (hm : Move sc s l s')
    (hbatch : s.batch ≠ []) :
    s'.batch <:+ s.batch ∧
      (s'.status = .running → s'.batch = if consumes l then s.batch.tail else s.batch) := by
  have htail : s.batch.tail <:+ s.batch := List.tail_suffix _
  cases hm with
  | waits evs hnil | waitFails hnil => exact absurd hnil hbatch
  | accepts fd a added rest hb hfd ha hcell =>
    rw [hb] at htail ⊢
    exact ⟨htail, fun _ => rfl⟩
  | acceptFails rest hb => exact ⟨List.suffix_rfl, by simp⟩
  | dangles p rest r env kept hb hc =>
    rw [hb] at htail ⊢
    exact ⟨htail, by simp⟩
  | overflows p c rest r env hb hc hadm hio =>
    rw [hb] at htail ⊢
    exact ⟨htail, by simp⟩
  | keeps p c cd rest r env hb hc hadm hio =>
    rw [hb] at htail ⊢
    exact ⟨htail, fun _ => rfl⟩
  | tears p c rest r env kept _ hb hc hadm hkeep hcorrupt htorn =>
    rw [hb] at htail ⊢
    rw [htorn.batch]
    exact ⟨htail, fun _ => rfl⟩
  | releases k helse => exact ⟨List.suffix_rfl, fun _ => rfl⟩

theorem healthy_of_step (h : Healthy tail s.loop) (hs : step sc s l = some s') :
    Healthy tail s'.loop := by
  rcases step_cases hs with ⟨-, -, hloop, -⟩ | ⟨-, -, hreturned, -⟩ | ⟨-, -, -, hloop, -⟩ |
    ⟨m, -, hm, -⟩
  · rwa [hloop]
  · exact fun hrunning => absurd (hreturned.symm.trans hrunning) (by simp)
  · rwa [hloop]
  · exact Loop.healthy_of_step h hm

/-- What a step of the loop does to a batch whose server has seen the signal. -/
theorem batch_of_step {m : Loop.Label} (h : Healthy tail s.loop) (hinv : Heeded s)
    (hsig : s.sigint = true) (hm : Loop.step sc s.loop m = some s'.loop) :
    s'.loop.batch <:+ s.loop.batch ∧ (s'.loop.status = .running ↔ Tolerable s.loop m) ∧
      (s'.loop.status = .running →
        s'.loop.batch = if consumes m then s.loop.batch.tail else s.loop.batch) := by
  have hrunning := Loop.status_of_step hm
  obtain ⟨⟨nodes, hl⟩, hsim⟩ := h hrunning
  have hmove := Loop.move_of_step hl hm
  have hbatch := hinv hsig hrunning
  have hwait : m ≠ .waitFails := by
    rintro rfl
    exact hbatch (waitFails_eq_some hm).1
  obtain ⟨hsuffix, hrest⟩ := batch_of_move hmove hbatch
  exact ⟨hsuffix, Loop.status_of_move hsim hrunning hmove hwait, hrest⟩

/-- **A timely step is heeded.** -/
theorem heeded_of_timely (h : Healthy tail s.loop) (hinv : Heeded s) (htimely : Timely s l)
    (hs : step sc s l = some s') : Heeded s' := by
  rcases step_cases hs with ⟨rfl, hnil, hloop, hsigint⟩ | ⟨rfl, -, hreturned, -⟩ |
    ⟨rfl, hwaiting, -, hloop, -⟩ | ⟨m, rfl, hm, hsigint⟩
  · intro hsig hrunning
    rw [hsigint] at hsig
    rw [hloop] at hrunning ⊢
    exact hinv hsig hrunning
  · exact fun _ hrunning => absurd (hreturned.symm.trans hrunning) (by simp)
  · intro _ _
    rw [hloop]
    exact htimely.resolve_left (by simp [hwaiting])
  · intro hsig hrunning
    rw [hsigint] at hsig
    obtain ⟨-, hstatus, hbatch⟩ := batch_of_step h hinv hsig hm
    rw [hbatch hrunning]
    split
    · next hcons => exact fun htail => htimely hsig hcons htail (hstatus.mp hrunning)
    · exact hinv hsig (Loop.status_of_step hm)

/-- **Behind any other step the server waits again.** -/
theorem not_heeded_of_not_timely (h : Healthy tail s.loop) (hinv : Heeded s)
    (htimely : ¬ Timely s l) (hs : step sc s l = some s') : ¬ Heeded s' := by
  rcases step_cases hs with ⟨rfl, -⟩ | ⟨rfl, hwaiting, -⟩ |
    ⟨rfl, -, hrunning, hloop, hsigint⟩ | ⟨m, rfl, hm, hsigint⟩
  · exact absurd trivial htimely
  · exact absurd (.inl hwaiting) htimely
  · intro hheeded
    refine htimely (.inr ?_)
    have hbatch := hheeded hsigint
    rw [hloop] at hbatch
    exact hbatch hrunning
  · simp only [Timely, not_forall, not_not] at htimely
    obtain ⟨hsig, hcons, htail, htolerable⟩ := htimely
    obtain ⟨-, hstatus, hbatch⟩ := batch_of_step h hinv hsig hm
    have hrunning := hstatus.mpr htolerable
    intro hheeded
    refine hheeded (hsigint.trans hsig) hrunning ?_
    rw [hbatch hrunning, if_pos hcons, htail]

/-! ## Runs -/

/-- The variable is never cleared. -/
theorem sigint_of_step (hsig : s.sigint = true) (hs : step sc s l = some s') :
    s'.sigint = true := by
  rcases step_cases hs with ⟨-, -, -, heq⟩ | ⟨-, -, -, -, heq, -⟩ | ⟨-, -, -, -, heq⟩ |
    ⟨m, -, -, heq⟩
  · exact heq.trans hsig
  · exact heq
  · exact heq
  · exact heq.trans hsig

/-- A step behind the signal goes on with the batch. -/
theorem suffix_of_step (h : Healthy tail s.loop) (hinv : Heeded s) (hsig : s.sigint = true)
    (hs : step sc s l = some s') : s'.loop.batch <:+ s.loop.batch := by
  rcases step_cases hs with ⟨-, -, hloop, -⟩ | ⟨-, -, -, hbatch, -⟩ | ⟨-, -, -, hloop, -⟩ |
    ⟨m, -, hm, -⟩
  · exact hloop ▸ List.suffix_rfl
  · exact hbatch ▸ List.suffix_rfl
  · exact hloop ▸ List.suffix_rfl
  · exact (batch_of_step h hinv hsig hm).1

theorem suffix_of_run (h : Healthy tail s.loop) (hsig : s.sigint = true)
    (hth : Throughout (step sc) Heeded s ls) (hrun : run (step sc) s ls = some t) :
    t.loop.batch <:+ s.loop.batch := by
  induction ls generalizing s with
  | nil =>
    obtain rfl := Option.some.inj hrun
    exact List.suffix_rfl
  | cons l ls ih =>
    obtain ⟨s', hs, hrest⟩ := run_cons_eq_some hrun
    have hinv : Heeded s := hth [] (l :: ls) s rfl rfl
    have hwhole : Throughout (step sc) Heeded s ([l] ++ ls) := hth
    have hlater := ih (healthy_of_step h hs) (sigint_of_step hsig hs)
      (hwhole.behind (run_one hs)) hrest
    exact hlater.trans (suffix_of_step h hinv hsig hs)

/-- What is asked of the states behind a signal follows from what is asked of each of them. -/
theorem heeds_iff_throughout (h : Healthy tail s.loop) :
    Heeds sc s ls ↔ Throughout (step sc) Heeded s ls := by
  constructor
  · intro hheeds ms ns t hsplit ht hsig
    exact (hheeds ms [] ns t t hsplit ht hsig rfl).2
  · rintro hth ms ns os u t rfl hu hsig ht
    have hhealthy : Healthy tail u.loop :=
      run_invariant (fun _ _ _ hj hs => healthy_of_step hj hs) h hu
    have hlater := hth.behind hu
    have hkeep : ∀ s l s', s.sigint = true → step sc s l = some s' → s'.sigint = true :=
      fun _ _ _ hsig hs => sigint_of_step hsig hs
    have hsigt : t.sigint = true := run_invariant hkeep hsig ht
    exact ⟨suffix_of_run hhealthy hsig hlater.of_append ht, hlater ns os t rfl ht hsigt⟩

/-- **A run heeds the signal exactly if every signal in it is timely.** -/
theorem heeds_iff (active sockfd epollfd : ℕ) (base : List ℕ) (vars : Loop.Vars)
    (h : run (step sc) (.initial (.initial active sockfd epollfd base vars)) ls = some t) :
    Heeds sc (.initial (.initial active sockfd epollfd base vars)) ls ↔
      Along (step sc) Timely (.initial (.initial active sockfd epollfd base vars)) ls := by
  have hhealthy : Healthy active
      (State.initial (.initial active sockfd epollfd base vars)).loop :=
    Loop.healthy_initial sockfd epollfd base vars
  rw [heeds_iff_throughout hhealthy]
  exact throughout_iff_along_of_invariant (J := fun s => Healthy active s.loop)
    (fun _ _ _ hj hs => healthy_of_step hj hs)
    (fun _ _ _ hj hinv htimely hs => heeded_of_timely hj hinv htimely hs)
    (fun _ _ _ hj hinv htimely hs => not_heeded_of_not_timely hj hinv htimely hs)
    hhealthy (fun hsig => absurd hsig (by simp [State.initial])) h

/-- **If every signal finds the server in `epoll_wait`, it has returned 0** behind the first
one, whatever calls of the operating system it had made. -/
theorem returns_zero (loop : Loop.State)
    (hwaits : Along (step sc) (fun s l => l = .signal → s.waiting = true) (.initial loop) ls)
    (h : run (step sc) (.initial loop) ls = some t) (hsig : t.sigint = true) :
    t.loop.status = .returned ∧ t.ret = some 0 := by
  have hkeep : ∀ s l s', (s.sigint = true → s.loop.status = .returned ∧ s.ret = some 0) →
      (l = .signal → s.waiting = true) → step sc s l = some s' →
      s'.sigint = true → s'.loop.status = .returned ∧ s'.ret = some 0 := by
    intro s l s' hinv hwaiting hs hsig'
    rcases step_cases hs with ⟨rfl, -, hloop, heq⟩ | ⟨-, -, hreturned, -, -, hret⟩ |
      ⟨rfl, hfalse, -⟩ | ⟨m, -, hm, heq⟩
    · have hstatus := (hinv (heq ▸ hsig')).1
      simp [step, hstatus] at hs
    · exact ⟨hreturned, hret⟩
    · exact absurd ((hwaiting rfl).symm.trans hfalse) (by simp)
    · have hstatus := (hinv (heq ▸ hsig')).1
      exact absurd (hstatus.symm.trans (Loop.status_of_step hm)) (by simp)
  exact run_invariant_along hkeep (fun hsig => absurd hsig (by simp [State.initial])) hwaits h hsig

/-- A client is accepted, and the signal comes while the server waits for the next event. -/
def interruptedWait : List Label :=
  [.block, .loop (.wait [none]), .loop (.accept 7 100 true), .block, .signal]

theorem interruptedWait_heeds :
    Along (step sampleConf) Timely (.initial Loop.started) interruptedWait ∧
    Heeds sampleConf (.initial Loop.started) interruptedWait := by
  have htimely : Along (step sampleConf) Timely (.initial Loop.started) interruptedWait := by
    decide +kernel
  have hrun : (run (step sampleConf) (.initial Loop.started) interruptedWait).isSome := by
    decide +kernel
  obtain ⟨t, ht⟩ := Option.isSome_iff_exists.mp hrun
  exact ⟨htimely, (heeds_iff 0 5 6 [0, 1, 2, 3, 4] ⟨0, 0, 0, 0, .incomplete⟩ ht).mpr htimely⟩

/-- The signal comes just before `epoll_wait` is called.  A client that connects later is
accepted. -/
def missedSignal : List Label :=
  [.signal, .block, .loop (.wait [none]), .loop (.accept 7 100 true)]

theorem missedSignal_not_heeds :
    (∃ t, run (step sampleConf) (.initial Loop.started) missedSignal = some t ∧
      t.sigint = true ∧ t.loop.accepted = 1 ∧ t.loop.status = .running) ∧
    ¬ Heeds sampleConf (.initial Loop.started) missedSignal := by
  have hrun : (run (step sampleConf) (.initial Loop.started) missedSignal).map
      (fun t => (t.sigint, t.loop.accepted, t.loop.status, t.loop.batch)) =
        some (true, 1, .running, []) := by
    decide +kernel
  obtain ⟨t, ht, heq⟩ := Option.map_eq_some_iff.mp hrun
  simp only [Prod.mk.injEq] at heq
  obtain ⟨hsig, haccepted, hstatus, hbatch⟩ := heq
  refine ⟨⟨t, ht, hsig, haccepted, hstatus⟩, fun hheeds => ?_⟩
  exact (hheeds missedSignal [] [] t t (by simp) ht hsig rfl).2 hstatus hbatch

end Signal
end Epoll
end BareHttp
