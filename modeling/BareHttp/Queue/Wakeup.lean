import BareHttp.Queue.Monitor

/-!
# No wakeup is lost

One thread pushes and the others pop.  A push signals one sleeper of `not_empty` and a
pop one sleeper of `not_full`, and a thread that is woken may find that another was
faster.  While `sigint` is not set this is enough: descriptors in the queue mean that
some worker is awake, and `main` sleeps in `queue_push` only while the queue is full.

Both are invariants as they stand.  A worker goes to sleep only at an empty queue, so
the last one cannot go to sleep while there is something to take; a push that finds all
of them asleep wakes one, which is then awake until it has been at the queue itself.
The producer is the only sleeper of `not_full`, so a pop wakes it and no one else.
-/

namespace BareHttp

/-- A section that waits found the queue full, in a push, or empty, in a pop. -/
theorem QueueCall.outcome_wait {q : Queue} {c : QueueCall} {sigint : Bool} {on : Condition}
    (h : c.outcome q sigint = .wait on) :
    (∃ fd, c = .push fd ∧ on = .notFull ∧ q.size = q.maxSize) ∨
      (c = .pop ∧ on = .notEmpty ∧ q.size = 0) := by
  cases c with
  | push fd =>
    simp only [outcome, queuePush] at h
    split at h
    · next hfull => exact .inl ⟨fd, rfl, (Outcome.wait.inj h).symm, hfull.1⟩
    · split at h <;> exact absurd h (by simp)
  | pop =>
    simp only [outcome, queuePop] at h
    split at h
    · next hempty => exact .inr ⟨rfl, (Outcome.wait.inj h).symm, hempty.1⟩
    · split at h <;> exact absurd h (by simp)
  | addActiveFd fd id | delActiveFd id | getActiveFd id | shutdown =>
    exact absurd h (by simp [outcome, queueAddActiveFd, queueDelActiveFd, queueGetActiveFd,
      queueShutdown])

namespace Monitor

open Transition

variable {τ : Type} [Fintype τ] [DecidableEq τ]

@[simp] theorem Phase.woken_sleepsOn (p : Phase) : p.woken.sleepsOn = none := by
  cases p <;> rfl

/-- **Who is asleep behind a step** was asleep before it, or found its condition in it. -/
theorem sleepsOn_of_step {s s' : State τ} {l : Label τ} (h : step s l = some s') {u : τ}
    {on : Condition} (hu : (s'.phase u).sleepsOn = some on) :
    (s.phase u).sleepsOn = some on ∨
      ∃ c, s.phase u = .inside c ∧ c.outcome s.queue s.sigint = .wait on ∧
        s'.queue = s.queue := by
  have hother : ∀ {t : τ} {p : Phase}, p.sleepsOn ≠ some on →
      (Function.update s.phase t p u).sleepsOn = some on → (s.phase u).sleepsOn = some on := by
    intro t p hp hup
    by_cases hut : u = t
    · subst hut
      rw [Function.update_self] at hup
      exact absurd hup hp
    · rwa [Function.update_of_ne hut] at hup
  rcases step_cases h with ⟨t, c, r, -, -, rfl⟩ | ⟨t, c, -, -, -, rfl⟩ |
    ⟨t, c, on', -, ht, hwait, rfl⟩ | ⟨t, c, woken, q, r, wakes, -, -, -, -, rfl⟩ |
    ⟨t, c, on', -, -, rfl⟩ | ⟨-, rfl⟩
  · exact .inl (hother (by simp [Phase.sleepsOn]) hu)
  · exact .inl (hother (by simp [Phase.sleepsOn]) hu)
  · by_cases hut : u = t
    · subst hut
      simp only [State.sleep, Function.update_self, Phase.sleepsOn, Option.some.injEq] at hu
      exact .inr ⟨c, ht, by rw [hwait, hu], rfl⟩
    · simp only [State.sleep, Function.update_of_ne hut] at hu
      exact .inl hu
  · left
    by_cases hut : u = t
    · subst hut
      exact absurd hu (by simp [State.finish, Phase.sleepsOn])
    · simp only [State.finish, Function.update_of_ne hut] at hu
      split at hu
      · exact absurd hu (by simp)
      · exact hu
  · exact .inl (hother (by simp [Phase.sleepsOn]) hu)
  · exact .inl hu

/-- **What changes the size**: a push, which signals a sleeper of `not_empty`, or a pop,
which signals one of `not_full`. -/
theorem size_of_step {s s' : State τ} {l : Label τ} (h : step s l = some s') :
    s'.queue.size = s.queue.size ∨
      ∃ t woken r on, s' = s.finish t s'.queue r woken ∧ Wakes.Allows s woken (.one on) ∧
        ((on = .notEmpty ∧ s.queue.size ≠ s.queue.maxSize) ∨
          (on = .notFull ∧ s'.queue.size = s.queue.size - 1)) := by
  rcases step_cases h with ⟨t, c, r, -, -, rfl⟩ | ⟨t, c, -, -, -, rfl⟩ | ⟨t, c, on, -, -, -, rfl⟩ |
    ⟨t, c, woken, q, r, wakes, -, -, hdone, hwoken, rfl⟩ | ⟨t, c, on, -, -, rfl⟩ | ⟨-, rfl⟩
  · exact .inl rfl
  · exact .inl rfl
  · exact .inl rfl
  · cases c with
    | push fd =>
      rcases queuePush_done hdone with ⟨-, rfl, -, -⟩ | ⟨-, hroom, rfl, rfl, rfl⟩
      · exact .inl rfl
      · exact .inr ⟨t, woken, none, .notEmpty, rfl, hwoken, .inl ⟨rfl, hroom⟩⟩
    | pop =>
      rcases queuePop_done hdone with ⟨-, rfl, -, -⟩ | ⟨-, -, rfl, rfl, rfl⟩
      · exact .inl rfl
      · exact .inr ⟨t, woken, _, .notFull, rfl, hwoken, .inr ⟨rfl, rfl⟩⟩
    | addActiveFd fd id | delActiveFd id | getActiveFd id | shutdown =>
      obtain ⟨rfl, -, -⟩ := Outcome.done.inj hdone
      exact .inl rfl
  · exact .inl rfl
  · exact .inl rfl

omit [Fintype τ] in
/-- A thread that is woken does not sleep. -/
theorem sleepsOn_finish {s : State τ} {t u : τ} {q : Queue} {r : Option ℕ} {woken : Finset τ}
    (hu : u ∈ woken) : ((s.finish t q r woken).phase u).sleepsOn = none := by
  by_cases hut : u = t
  · subst hut
    simp [State.finish, Phase.sleepsOn]
  · simp [State.finish, Function.update_of_ne hut, hu]

omit [DecidableEq τ] in
/-- A signal wakes one of the sleepers, if there are any. -/
theorem exists_woken {s : State τ} {woken : Finset τ} {on : Condition} {w : τ}
    (h : Wakes.Allows s woken (.one on)) (hw : (s.phase w).sleepsOn = some on) :
    ∃ u ∈ woken, (s.phase u).sleepsOn = some on := by
  have hmem : w ∈ s.sleepers on := by simpa [State.sleepers] using hw
  have hne : woken.Nonempty := by
    rw [Finset.nonempty_iff_ne_empty]
    intro hempty
    rw [h.2 hempty] at hmem
    exact absurd hmem (Finset.notMem_empty w)
  obtain ⟨u, hu⟩ := hne
  exact ⟨u, hu, by simpa [State.sleepers] using h.1 hu⟩

/-- Who may be in which call: the producer `p` pushes and the others pop. -/
def Plays (p t : τ) : QueueCall → Prop
  | .push _ => t = p
  | .pop => t ≠ p
  | _ => True

/-- A call is made by a thread that may make it. -/
def Roles (p : τ) : Label τ → Prop
  | .call t c => Plays p t c
  | _ => True

/-- What the threads keep while `sigint` is not set. -/
structure Awake (p : τ) (s : State τ) : Prop where
  plays : ∀ t c, (s.phase t).call = some c → Plays p t c
  sleeper : ∀ t on, (s.phase t).sleepsOn = some on → (on = .notFull ↔ t = p)
  worker : 0 < s.queue.size → ∀ w, (s.phase w).sleepsOn = some .notEmpty →
    ∃ u, u ≠ p ∧ (s.phase u).sleepsOn ≠ some .notEmpty
  producer : (s.phase p).sleepsOn = some .notFull → s.queue.size = s.queue.maxSize

omit [Fintype τ] [DecidableEq τ] in
theorem awake_initial (p : τ) (queueMax : ℕ) : Awake p (State.initial queueMax) :=
  ⟨fun _ _ hc => absurd hc (by simp [State.initial, Phase.call]),
    fun _ _ hon => absurd hon (by simp [State.initial, Phase.sleepsOn]),
    fun hsize => absurd hsize (by simp [State.initial, queueCreate]),
    fun hon => absurd hon (by simp [State.initial, Phase.sleepsOn])⟩

namespace Awake

variable {p : τ} {s s' : State τ} {l : Label τ}

/-- The calls of the threads behind a step are their calls before it, or a new one. -/
theorem plays_step (ha : Awake p s) (hl : Roles p l) (h : step s l = some s') :
    ∀ t c, (s'.phase t).call = some c → Plays p t c := by
  intro u d hd
  by_cases hcall : ∃ t c, l = .call t c
  · obtain ⟨t, c, rfl⟩ := hcall
    rcases step_cases h with ⟨t', c', r, hl', -, rfl⟩ | ⟨t', c', hl', -⟩ | ⟨t', c', on, hl', -⟩ |
      ⟨t', c', woken, q, r, wakes, hl', -⟩ | ⟨t', c', on, hl', -⟩ | ⟨hl', -⟩
    · obtain ⟨rfl, rfl⟩ := Label.call.inj hl'
      by_cases hut : u = t
      · subst hut
        simp only [Function.update_self, Phase.call, Option.some.injEq] at hd
        rw [← hd]
        exact hl
      · simp only [Function.update_of_ne hut] at hd
        exact ha.plays u d hd
    all_goals exact absurd hl' (by simp)
  · rcases step_effect h (fun t c hc => hcall ⟨t, c, hc⟩) with
      ⟨-, halike⟩ | ⟨t, c, woken, r, wakes, -, -, -, hready, hother⟩
    · exact ha.plays u d ((halike u).1 ▸ hd)
    · by_cases hut : u = t
      · subst hut
        exact absurd hd (by simp [hready, Phase.call])
      · exact ha.plays u d ((hother u hut).1 ▸ hd)

/-- A worker sleeps on `not_empty` and the producer on `not_full`. -/
theorem sleeper_step (ha : Awake p s) (h : step s l = some s') :
    ∀ t on, (s'.phase t).sleepsOn = some on → (on = .notFull ↔ t = p) := by
  intro t on hon
  rcases sleepsOn_of_step h hon with hold | ⟨c, hin, hwait, -⟩
  · exact ha.sleeper t on hold
  · have hplays : Plays p t c := ha.plays t c (by rw [hin]; rfl)
    rcases QueueCall.outcome_wait hwait with ⟨fd, rfl, rfl, -⟩ | ⟨rfl, rfl, -⟩
    · exact ⟨fun _ => hplays, fun _ => rfl⟩
    · exact ⟨fun hc => absurd hc (by simp), fun ht => absurd ht hplays⟩

/-- **A worker is awake while there is something to take.** -/
theorem worker_step (ha : Awake p s) (hq : s.queue.Ok) (h : step s l = some s')
    (hsize : 0 < s'.queue.size) {w : τ} (hw : (s'.phase w).sleepsOn = some .notEmpty) :
    ∃ u, u ≠ p ∧ (s'.phase u).sleepsOn ≠ some .notEmpty := by
  -- nobody goes to sleep on `not_empty` in a step behind which the queue is not empty
  have hback : ∀ u, (s'.phase u).sleepsOn = some .notEmpty →
      (s.phase u).sleepsOn = some .notEmpty := by
    intro u hu
    rcases sleepsOn_of_step h hu with hold | ⟨c, -, hwait, hsame⟩
    · exact hold
    · rcases QueueCall.outcome_wait hwait with ⟨fd, -, hon, -⟩ | ⟨-, -, hempty⟩
      · exact absurd hon (by simp)
      · rw [hsame, hempty] at hsize
        exact absurd hsize (Int.lt_irrefl 0)
  have hstay : 0 < s.queue.size → ∃ u, u ≠ p ∧ (s'.phase u).sleepsOn ≠ some .notEmpty := by
    intro hpos
    obtain ⟨u, hup, hu⟩ := ha.worker hpos w (hback w hw)
    exact ⟨u, hup, fun hu' => hu (hback u hu')⟩
  rcases size_of_step h with hsame | ⟨t, woken, r, on, hs', hwoken, ⟨rfl, -⟩ | ⟨-, hless⟩⟩
  · exact hstay (by rwa [hsame] at hsize)
  · obtain ⟨u, hu, huold⟩ := exists_woken hwoken (hback w hw)
    refine ⟨u, fun hup => absurd ((ha.sleeper u _ huold).mpr hup) (by simp), ?_⟩
    rw [hs', sleepsOn_finish hu]
    simp
  · exact hstay (by have := hq.size_nonneg; omega)

/-- **The producer sleeps only at a full queue.** -/
theorem producer_step {queueMax : ℕ} (ha : Awake p s) (hok : Ok queueMax s)
    (h : step s l = some s') (hp : (s'.phase p).sleepsOn = some .notFull) :
    s'.queue.size = s'.queue.maxSize := by
  have hcap : s'.queue.maxSize = s.queue.maxSize :=
    (step_ok hok h).capacity.trans hok.capacity.symm
  rcases sleepsOn_of_step h hp with hold | ⟨c, -, hwait, hsame⟩
  · have hfull : s.queue.size = s.queue.maxSize := ha.producer hold
    rcases size_of_step h with hsame | ⟨t, woken, r, on, hs', hwoken, ⟨-, hroom⟩ | ⟨rfl, -⟩⟩
    · rw [hsame, hcap, hfull]
    · exact absurd hfull hroom
    · obtain ⟨u, hu, huold⟩ := exists_woken hwoken hold
      obtain rfl : u = p := (ha.sleeper u _ huold).mp rfl
      rw [hs', sleepsOn_finish hu] at hp
      exact absurd hp (by simp)
  · rcases QueueCall.outcome_wait hwait with ⟨fd, -, -, hfull⟩ | ⟨-, hon, -⟩
    · rw [hsame, hfull]
    · exact absurd hon (by simp)

/-- **One step keeps everybody awake who has to be.** -/
theorem of_step {queueMax : ℕ} (ha : Awake p s) (hok : Ok queueMax s) (hl : Roles p l)
    (h : step s l = some s') : Awake p s' where
  plays := ha.plays_step hl h
  sleeper := ha.sleeper_step h
  worker hsize _ hw := ha.worker_step hok.queue h hsize hw
  producer hp := ha.producer_step hok h hp

end Awake

/-- **No wakeup is lost.**  One thread pushes, any number of others pop, a signal wakes at
least one sleeper and threads may wake up by themselves.  Then no state that is reached
has descriptors in the queue with all workers asleep on `not_empty`, or a free place with
the producer asleep on `not_full`.  Only a thread that was not woken is asleep, and
whether `sigint` is set makes no difference. -/
theorem no_lost_wakeup {queueMax : ℕ} (p : τ) {ls : List (Label τ)} {s : State τ}
    (hroles : ∀ l ∈ ls, Roles p l) (h : run step (State.initial queueMax) ls = some s) :
    ¬ (0 < s.queue.size ∧ (∃ w, w ≠ p) ∧
        ∀ w, w ≠ p → (s.phase w).sleepsOn = some .notEmpty) ∧
      ¬ (s.queue.size < s.queue.maxSize ∧ (s.phase p).sleepsOn = some .notFull) := by
  have hstep : ∀ (s : State τ) l s', Ok queueMax s ∧ Awake p s → Roles p l →
      step s l = some s' → Ok queueMax s' ∧ Awake p s' := by
    rintro s l s' ⟨hok, hawake⟩ hl hs
    exact ⟨step_ok hok hs, hawake.of_step hok hl hs⟩
  have hinv : Ok queueMax s ∧ Awake p s :=
    run_invariant_along hstep ⟨ok_initial queueMax, awake_initial p queueMax⟩
      (Along.of_forall hroles) h
  constructor
  · rintro ⟨hsize, ⟨w, hw⟩, hall⟩
    obtain ⟨u, hu, hawake⟩ := hinv.2.worker hsize w (hall w hw)
    exact hawake (hall u hu)
  · rintro ⟨hroom, hasleep⟩
    have hfull := hinv.2.producer hasleep
    omega

/-- Thread 0 pushes.  The two others sleep at the empty queue of one place; the first
descriptor wakes one of them, and the second finds no place and puts thread 0 to sleep. -/
def fullQueue : List (Label (Fin 3)) :=
  [.call 1 .pop, .lock 1, .critical 1 ∅, .call 2 .pop, .lock 2, .critical 2 ∅,
    .call 0 (.push 7), .lock 0, .critical 0 {1}, .call 0 (.push 8), .lock 0, .critical 0 ∅]

theorem fullQueue_awake :
    ∃ s, run step (State.initial 1) fullQueue = some s ∧
      (s.queue.size = 1 ∧ (s.phase 0).sleepsOn = some .notFull ∧
        (s.phase 2).sleepsOn = some .notEmpty) ∧
      ¬ (0 < s.queue.size ∧ (∃ w : Fin 3, w ≠ 0) ∧
        ∀ w, w ≠ 0 → (s.phase w).sleepsOn = some .notEmpty) := by
  have hrun : (run step (State.initial 1) fullQueue).map
      (fun s => (s.queue.size, (s.phase 0).sleepsOn, (s.phase 2).sleepsOn)) =
      some (1, some .notFull, some .notEmpty) := by
    decide +kernel
  obtain ⟨s, hs, hvals⟩ := Option.map_eq_some_iff.mp hrun
  obtain ⟨hsize, hvals'⟩ := Prod.mk.inj hvals
  have hroles : ∀ l ∈ fullQueue, Roles 0 l := by simp [fullQueue, Roles, Plays]
  exact ⟨s, hs, ⟨hsize, Prod.mk.inj hvals'⟩, (no_lost_wakeup 0 hroles hs).1⟩

end Monitor
end BareHttp
