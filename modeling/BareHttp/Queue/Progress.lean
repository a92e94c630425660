import BareHttp.Queue.Wakeup

/-!
# Who can go on at the queue

A thread that is in a function of the queue and does not sleep can take the mutex, or
holds it and can go on with its section, or waits for one that holds it and can.  So
somebody can take a step wherever a thread is in a call and awake.  Once `sigint` is set
nobody falls asleep any more.
-/

namespace BareHttp

/-- Nobody waits once the flag is set. -/
theorem QueueCall.sigint_of_wait {q : Queue} {c : QueueCall} {sigint : Bool} {on : Condition}
    (h : c.outcome q sigint = .wait on) : sigint = false := by
  cases sigint with
  | false => rfl
  | true =>
    cases c <;> simp [outcome, queuePush, queuePop, queueAddActiveFd, queueDelActiveFd,
      queueGetActiveFd, queueShutdown] at h

namespace Monitor

open Transition

variable {τ : Type} [Fintype τ] [DecidableEq τ]

/-- What the mutex and the sleepers keep: the thread that holds the mutex is in its
section, and a thread sleeps in a push on `not_full` or in a pop on `not_empty`. -/
structure Orderly (s : State τ) : Prop where
  owner : ∀ t, s.owner = some t → ∃ c, s.phase t = .inside c
  asleep : ∀ t c on, s.phase t = .asleep c on →
    (∃ fd, c = .push fd ∧ on = .notFull) ∨ (c = .pop ∧ on = .notEmpty)

omit [Fintype τ] [DecidableEq τ] in
theorem orderly_initial (queueMax : ℕ) : Orderly (State.initial queueMax : State τ) :=
  ⟨fun _ ho => absurd ho (by simp [State.initial]),
    fun _ _ _ hp => absurd hp (by simp [State.initial])⟩

omit [Fintype τ] in
/-- A thread that moves leaves the others where they are. -/
theorem Orderly.update {s s' : State τ} (hs : Orderly s) {t : τ} {p : Phase}
    (hphase : s'.phase = Function.update s.phase t p)
    (howner : ∀ u, s'.owner = some u → (u = t ∧ ∃ c, p = .inside c) ∨ (u ≠ t ∧ s.owner = some u))
    (hasleep : ∀ c on, p = .asleep c on →
      (∃ fd, c = .push fd ∧ on = .notFull) ∨ (c = .pop ∧ on = .notEmpty)) : Orderly s' := by
  constructor
  · intro u hu
    rw [hphase]
    rcases howner u hu with ⟨rfl, c, rfl⟩ | ⟨hut, hold⟩
    · exact ⟨c, Function.update_self _ _ _⟩
    · obtain ⟨c, hc⟩ := hs.owner u hold
      exact ⟨c, (Function.update_of_ne hut _ _).trans hc⟩
  · intro u c on hu
    rw [hphase] at hu
    by_cases hut : u = t
    · subst hut
      rw [Function.update_self] at hu
      exact hasleep c on hu
    · rw [Function.update_of_ne hut] at hu
      exact hs.asleep u c on hu

theorem Orderly.of_step {s s' : State τ} {l : Label τ} (hs : Orderly s)
    (h : step s l = some s') : Orderly s' := by
  -- a thread that is not in its section does not hold the mutex
  have hnot : ∀ {t u : τ} {p : Phase}, s.phase t = p → (∀ c, p ≠ .inside c) →
      s.owner = some u → u ≠ t := by
    rintro t u p ht hp hu rfl
    obtain ⟨c, hc⟩ := hs.owner u hu
    exact hp c (ht.symm.trans hc)
  rcases step_cases h with ⟨t, c, r, -, ht, rfl⟩ | ⟨t, c, -, ht, ho, rfl⟩ |
    ⟨t, c, on, -, ht, hwait, rfl⟩ | ⟨t, c, woken, q, r, wakes, -, ht, -, -, rfl⟩ |
    ⟨t, c, on, -, ht, rfl⟩ | ⟨-, rfl⟩
  · exact hs.update rfl (fun u hu => .inr ⟨hnot ht (by simp) hu, hu⟩) (by simp)
  · refine hs.update rfl (fun u hu => .inl ⟨(Option.some.inj hu).symm, c, rfl⟩) (by simp)
  · refine hs.update rfl (fun u hu => absurd hu (by simp [State.sleep])) ?_
    intro c' on' heq
    obtain ⟨rfl, rfl⟩ := Phase.asleep.inj heq
    rcases QueueCall.outcome_wait hwait with ⟨fd, hc, hon, -⟩ | ⟨hc, hon, -⟩
    · exact .inl ⟨fd, hc, hon⟩
    · exact .inr ⟨hc, hon⟩
  · refine ⟨fun u hu => absurd hu (by simp [State.finish]), fun u c' on hu => ?_⟩
    by_cases hut : u = t
    · subst hut
      exact absurd hu (by simp [State.finish])
    · simp only [State.finish, Function.update_of_ne hut] at hu
      split at hu
      · have hawake := congrArg Phase.sleepsOn hu
        rw [Phase.woken_sleepsOn] at hawake
        exact absurd hawake (by simp [Phase.sleepsOn])
      · exact hs.asleep u c' on hu
  · exact hs.update rfl (fun u hu => .inr ⟨hnot ht (by simp) hu, hu⟩) (by simp)
  · exact ⟨hs.owner, hs.asleep⟩

/-- A thread in its section can go on. -/
theorem exists_critical {s : State τ} {t : τ} {c : QueueCall} (ht : s.phase t = .inside c) :
    ∃ woken s', step s (.critical t woken) = some s' := by
  cases ho : c.outcome s.queue s.sigint with
  | wait on => exact ⟨∅, s.sleep t c on, by simp [step, ht, ho]⟩
  | done q r wakes =>
    cases wakes with
    | nobody => exact ⟨∅, s.finish t q r ∅, by simp [step, ht, ho, Wakes.Allows]⟩
    | one on =>
      exact ⟨s.sleepers on, s.finish t q r (s.sleepers on),
        by simp [step, ht, ho, Wakes.Allows]⟩
    | all on =>
      exact ⟨s.sleepers on, s.finish t q r (s.sleepers on),
        by simp [step, ht, ho, Wakes.Allows]⟩

/-- **Where a thread is in a call and awake, some thread can go on**: it takes the mutex, or
whoever holds it goes on. -/
theorem exists_step_of_call {s : State τ} (hs : Orderly s) {t : τ} {c : QueueCall}
    (hcall : (s.phase t).call = some c) (hawake : (s.phase t).sleepsOn = none) :
    ∃ l s', step s l = some s' ∧ (∃ u, l = .lock u ∨ ∃ woken, l = .critical u woken) := by
  cases ht : s.phase t with
  | ready r => exact absurd hcall (by simp [ht, Phase.call])
  | asleep d on => exact absurd hawake (by simp [ht, Phase.sleepsOn])
  | inside d =>
    obtain ⟨woken, s', hstep⟩ := exists_critical ht
    exact ⟨_, s', hstep, t, .inr ⟨woken, rfl⟩⟩
  | locking d =>
    cases ho : s.owner with
    | none =>
      refine ⟨.lock t, { s with owner := some t, phase := Function.update s.phase t (.inside d) },
        ?_, t, .inl rfl⟩
      simp [step, ht, ho]
    | some u =>
      obtain ⟨d', hu⟩ := hs.owner u ho
      obtain ⟨woken, s', hstep⟩ := exists_critical hu
      exact ⟨_, s', hstep, u, .inr ⟨woken, rfl⟩⟩

/-- **Once the flag is set nobody falls asleep.** -/
theorem sleepsOn_of_sigint {s s' : State τ} {l : Label τ} (h : step s l = some s')
    (hsigint : s.sigint = true) {u : τ} {on : Condition}
    (hu : (s'.phase u).sleepsOn = some on) : (s.phase u).sleepsOn = some on := by
  rcases sleepsOn_of_step h hu with hold | ⟨c, -, hwait, -⟩
  · exact hold
  · exact absurd (hsigint.symm.trans (QueueCall.sigint_of_wait hwait)) (by simp)

end Monitor
end BareHttp
