import BareHttp.Pool.ActiveFds

/-!
# What the workers share and how long it lives

`main` allocates the queue, the configuration, the log and the arguments of the threads,
creates the threads one by one, and frees all of it before it returns.  The pool of
`Pool.System` is the server behind the loop that creates the threads; here that loop and
the two ways to the end of `main` are added around it.  A thread that was created takes its
arguments in a step of its own, at any time, and is a worker of the pool from then on.

Behind the joins nobody is left, and everything may be freed.  The other way is the one
behind a failing `pthread_create`: `main` detaches the threads it has created already,
frees what they use, and returns.  Until the process has ended they run on.  That way is
harmless only where there are none, that is, where the first `pthread_create` fails.

A use of something that has been freed is recorded (`late`) and ends the run, since
nothing is known behind it.
-/

namespace BareHttp
namespace Pool

open Transition

variable {n : ℕ}

/-- What `main` allocates and the workers use. -/
inductive Resource where
  | queue
  | conf
  | log
  | args
  deriving DecidableEq

/-- The thread that takes the step. -/
def Label.thread : Label n → Option (Thread n)
  | .monitor (.call t _) => some t
  | .monitor (.lock t) => some t
  | .monitor (.critical t _) => some t
  | .monitor (.spurious t) => some t
  | .monitor .sigint => none
  | .accept _ => some .main
  | .acceptFails => some .main
  | .main => some .main
  | .worker i => some (.worker i)
  | .recv i => some (.worker i)
  | .received i _ => some (.worker i)

/-- A worker moves in its own steps only. -/
theorem worker_eq_of_thread {sc : ServerConf} {queueMax sockfd : ℕ} {s s' : State n}
    {l : Label n} (hc : Consistent queueMax s) (h : step sc sockfd s l = some s') {i : Fin n}
    (hl : l.thread ≠ some (.worker i)) : s'.worker i = s.worker i := by
  have hother : ∀ {j : Fin n} (pc : WorkerPc), some (Thread.worker j) ≠ some (.worker i) →
      Function.update s.worker j pc i = s.worker i := by
    intro j pc hj
    refine Function.update_of_ne ?_ _ _
    rintro rfl
    exact hj rfl
  cases hc.move h with
  | taken => exact hother _ hl
  | exits | pops | registers | reads | opensFile | closesFile | uses | closesConnection
  | unregisters | repeats | resumes | recv | received => exact hother _ hl
  | _ => rfl

/-- A worker that has left its loop takes no step. -/
theorem not_step_of_exited {sc : ServerConf} {queueMax sockfd : ℕ} {s s' : State n}
    {l : Label n} (hc : Consistent queueMax s) {i : Fin n} (hi : s.worker i = .exited)
    (hl : l.thread = some (.worker i)) : step sc sockfd s l ≠ some s' := by
  intro h
  -- the worker is outside the functions of the queue
  have hcall := hc.worker_call hi fun _ _ h => h
  have hphase : ∀ {t : Thread n} {p : Monitor.Phase}, s.monitor.phase t = p →
      p.call ≠ none → some t ≠ some (.worker i) := by
    intro t p hp hp' ht
    rw [Option.some.inj ht] at hp
    exact hp' (hp ▸ hcall)
  have hmonitor : ∀ {ml : Monitor.Label (Thread n)} {m : Monitor.State (Thread n)},
      Monitor.step s.monitor ml = some m → (Label.monitor ml).thread = some (.worker i) →
      ∃ t c, ml = .call t c := by
    intro ml m hm hml
    rcases Monitor.step_cases hm with ⟨t, c, r, rfl, -, -⟩ | ⟨t, c, rfl, hp, -⟩ |
      ⟨t, c, on, rfl, hp, -⟩ | ⟨t, c, woken, q, r, wakes, rfl, hp, -⟩ | ⟨t, c, on, rfl, hp, -⟩ |
      ⟨rfl, -⟩
    · exact ⟨t, c, rfl⟩
    · exact absurd hml (hphase hp (by simp [Monitor.Phase.call]))
    · exact absurd hml (hphase hp (by simp [Monitor.Phase.call]))
    · exact absurd hml (hphase hp (by simp [Monitor.Phase.call]))
    · exact absurd hml (hphase hp (by simp [Monitor.Phase.call]))
    · exact absurd hml (by simp [Label.thread])
  cases l with
  | monitor ml =>
    cases ml with
    | call => exact absurd h (by simp [step])
    | lock t =>
      obtain ⟨m, hm, -⟩ := Option.map_eq_some_iff.mp h
      obtain ⟨_, _, hcall⟩ := hmonitor hm hl
      exact absurd hcall (by simp)
    | critical t woken =>
      obtain ⟨m, hm, -⟩ := Option.map_eq_some_iff.mp h
      obtain ⟨_, _, hcall⟩ := hmonitor hm hl
      exact absurd hcall (by simp)
    | spurious t =>
      obtain ⟨m, hm, -⟩ := Option.map_eq_some_iff.mp h
      obtain ⟨_, _, hcall⟩ := hmonitor hm hl
      exact absurd hcall (by simp)
    | sigint => exact absurd hl (by simp [Label.thread])
  | accept | acceptFails | main => exact absurd hl (by simp [Label.thread])
  | worker j =>
    obtain rfl : j = i := by simpa [Label.thread] using hl
    exact absurd h (by simp [step, State.stepWorker, hi])
  | recv j =>
    obtain rfl : j = i := by simpa [Label.thread] using hl
    exact absurd h (by simp [step, hi])
  | received j c =>
    obtain rfl : j = i := by simpa [Label.thread] using hl
    exact absurd h (by simp [step, hi])

/-- What a step of a worker uses of what `main` has allocated.  Every system call of an
answer counts as a use of the configuration and the log. -/
def State.uses (s : State n) : Label n → List Resource
  | .monitor _ => [.queue]
  | .worker i =>
    match s.worker i with
    | .top => if s.monitor.sigint then [] else [.queue]
    | .popped _ => if s.monitor.sigint then [] else [.queue]
    | .registering _ _ => [.log]
    | .acting _ _ (.unregister :: _) => [.queue]
    | .acting _ _ (_ :: _) => [.conf, .log]
    | _ => []
  | .received _ _ => [.conf, .log]
  | _ => []

namespace Lifetime

/-- Where `main` is: in the loop that creates the threads, in the part that the pool models,
behind it with what is left to free, or behind its `return`. -/
inductive Stage where
  | spawning
  | serving
  | freeing (left : List Resource)
  | returned
  deriving DecidableEq

/-- A state of the process. -/
structure State (n : ℕ) where
  pool : Pool.State n
  stage : Stage
  created : ℕ
  started : Fin n → Bool
  freed : List Resource
  late : List (Fin n × Resource)

/-- What can happen next.  `create` and `finish` carry whether `pthread_create` and the last
`tcp_shutdown` succeed. -/
inductive Label (n : ℕ) where
  | create (ok : Bool)
  | serve
  | start (i : Fin n)
  | pool (l : Pool.Label n)
  | finish (ok : Bool)
  | free

/-- The state in front of the pool loop. -/
def State.initial (queueMax sockfd : ℕ) (base : List ℕ) (requests : Fin n → HttpRequest) :
    State n where
  pool := Pool.State.initial queueMax sockfd base requests
  stage := .spawning
  created := 0
  started := fun _ => false
  freed := []
  late := []

/-- A worker uses something; what had been freed before is recorded. -/
def State.touch (s : State n) (i : Fin n) (rs : List Resource) : State n :=
  { s with late := s.late ++ (rs.filter (· ∈ s.freed)).map fun r => (i, r) }

/-- Whether the thread can take a step: `main` behind the pool loop, a worker once it has its
arguments, and a signal until the process ends. -/
def State.Runs (s : State n) : Option (Thread n) → Prop
  | some .main => s.stage = .serving
  | some (.worker i) => s.started i = true ∧ s.stage ≠ .returned
  | none => s.stage ≠ .returned

instance (s : State n) (t : Option (Thread n)) : Decidable (s.Runs t) :=
  match t with
  | some .main => inferInstanceAs (Decidable (s.stage = .serving))
  | some (.worker i) => inferInstanceAs (Decidable (s.started i = true ∧ s.stage ≠ .returned))
  | none => inferInstanceAs (Decidable (s.stage ≠ .returned))

/-- One step. -/
def step (sc : ServerConf) (sockfd : ℕ) (s : State n) (l : Label n) : Option (State n) :=
  if s.late ≠ [] then none
  else
    match l with
    | .create ok =>
      if s.stage = .spawning ∧ s.created < n then
        if ok then some { s with created := s.created + 1 }
        else some { s with stage := .freeing [.queue, .conf, .log, .args] }
      else none
    | .serve =>
      if s.stage = .spawning ∧ s.created = n then some { s with stage := .serving } else none
    | .start i =>
      if i < s.created ∧ s.started i = false ∧ s.stage ≠ .returned then
        some { s.touch i [.args] with started := Function.update s.started i true }
      else none
    | .pool l =>
      if s.Runs l.thread then
        (Pool.step sc sockfd s.pool l).map fun p =>
          match l.thread with
          | some (.worker i) => { s.touch i (s.pool.uses l) with pool := p }
          | _ => { s with pool := p }
      else none
    | .finish ok =>
      if s.stage = .serving ∧ s.pool.main = .done then
        if ok then some { s with stage := .freeing [.queue, .conf, .log, .args] }
        else some { s with stage := .freeing [.conf, .queue, .log, .args] }
      else none
    | .free =>
      match s.stage with
      | .freeing (r :: rs) => some { s with stage := .freeing rs, freed := s.freed ++ [r] }
      | .freeing [] => some { s with stage := .returned }
      | _ => none

/-- No worker has used what had been freed. -/
def Safe (s : State n) : Prop := s.late = []

/-- `pthread_create` fails at most for the first thread. -/
def FailsFirst (s : State n) : Label n → Prop
  | .create ok => ok = false → s.created = 0
  | _ => True

instance (s : State n) (l : Label n) : Decidable (FailsFirst s l) :=
  match l with
  | .create ok => inferInstanceAs (Decidable (ok = false → s.created = 0))
  | .serve | .start _ | .pool _ | .finish _ | .free => .isTrue trivial

/-- `main` is behind the joins, or behind a failure. -/
def Stage.past : Stage → Bool
  | .freeing _ => true
  | .returned => true
  | _ => false

/-- What a run keeps in which `pthread_create` fails at most for the first thread: where
`main` frees anything, every thread it has created has left its loop. -/
structure Kept (queueMax : ℕ) (s : State n) : Prop where
  reached : Reached queueMax s.pool
  safe : Safe s
  early : s.stage.past = false → s.freed = []
  created : ∀ i, s.started i = true → i < s.created
  waiting : ∀ i, s.started i = false → s.pool.worker i = .top
  past : s.stage.past = true → ∀ i : Fin n, i < s.created → s.pool.worker i = .exited

theorem State.touch_late {s : State n} (hfreed : s.freed = []) (i : Fin n) (rs : List Resource) :
    (s.touch i rs).late = s.late := by
  simp [State.touch, hfreed]

namespace Kept

variable {sc : ServerConf} {queueMax sockfd : ℕ} {s s' : State n}

/-- A thread that has left its loop, or one of the others, once `main` frees. -/
theorem exited (hs : Kept queueMax s) (hpast : s.stage.past = true) {i : Fin n}
    (hi : s.started i = true) : s.pool.worker i = .exited :=
  hs.past hpast i (hs.created i hi)

/-- A thread takes its arguments. -/
theorem of_start (hs : Kept queueMax s) {i : Fin n} (hi : i < s.created)
    (hstarted : s.started i = false) :
    Kept queueMax { s.touch i [.args] with started := Function.update s.started i true } := by
  -- `main` frees nothing yet, or else the thread would have left its loop
  have hnot : s.stage.past = false := by
    by_contra hpast
    have hexited := hs.past (by simpa using hpast) i hi
    rw [hs.waiting i hstarted] at hexited
    exact absurd hexited (by simp)
  have hsafe : Safe (s.touch i [.args]) := (State.touch_late (hs.early hnot) i _).trans hs.safe
  refine ⟨hs.reached, hsafe, hs.early, fun j hj => ?_, fun j hj => ?_, hs.past⟩
  · by_cases hji : j = i
    · subst hji
      exact hi
    · exact hs.created j ((Function.update_of_ne hji _ _).symm.trans hj)
  · by_cases hji : j = i
    · subst hji
      exact absurd hj (by simp)
    · exact hs.waiting j ((Function.update_of_ne hji _ _).symm.trans hj)

/-- A step of the pool. -/
theorem of_pool (hs : Kept queueMax s) {l : Pool.Label n} (hruns : s.Runs l.thread)
    {p : Pool.State n} (h : Pool.step sc sockfd s.pool l = some p) :
    Kept queueMax { s with pool := p } := by
  have hmove := hs.reached.consistent.move h
  refine ⟨hs.reached.of_step h, hs.safe, hs.early, hs.created, fun i hi => ?_,
    fun hpast i hi => hmove.exited_mono (hs.past hpast i hi)⟩
  rw [← hs.waiting i hi]
  refine worker_eq_of_thread hs.reached.consistent h fun hl => ?_
  rw [hl] at hruns
  exact absurd (hi.symm.trans hruns.1) (by simp)

/-- **A worker that takes a step uses nothing that has been freed.** -/
theorem early_of_worker (hs : Kept queueMax s) {l : Pool.Label n} (hruns : s.Runs l.thread)
    {i : Fin n} (hl : l.thread = some (.worker i)) {p : Pool.State n}
    (h : Pool.step sc sockfd s.pool l = some p) : s.freed = [] := by
  refine hs.early ?_
  by_contra hpast
  rw [hl] at hruns
  exact not_step_of_exited hs.reached.consistent (hs.exited (by simpa using hpast) hruns.1) hl h

theorem of_step (hs : Kept queueMax s) {l : Label n} (hl : FailsFirst s l)
    (h : step sc sockfd s l = some s') : Kept queueMax s' := by
  have hsafe : s.late = [] := hs.safe
  unfold step at h
  rw [if_neg (not_not.mpr hsafe)] at h
  cases l with
  | create ok =>
    dsimp only at h
    split at h
    · next hcond =>
      split at h
      · rw [← Option.some.inj h]
        exact ⟨hs.reached, hs.safe, hs.early, fun i hi => Nat.lt_succ_of_lt (hs.created i hi),
          hs.waiting, fun hpast => absurd hpast (by simp [hcond.1, Stage.past])⟩
      · next hfails =>
        rw [← Option.some.inj h]
        have hnone : s.created = 0 := hl (by simpa using hfails)
        exact ⟨hs.reached, hs.safe, fun hpast => absurd hpast (by simp [Stage.past]), hs.created,
          hs.waiting, fun _ i hi => absurd hi (by simp [hnone])⟩
    · exact absurd h (by simp)
  | serve =>
    dsimp only at h
    split at h
    · next hcond =>
      rw [← Option.some.inj h]
      exact ⟨hs.reached, hs.safe, fun _ => hs.early (by simp [hcond.1, Stage.past]), hs.created,
        hs.waiting, fun hpast => absurd hpast (by simp [Stage.past])⟩
    · exact absurd h (by simp)
  | start i =>
    dsimp only at h
    split at h
    · next hcond =>
      rw [← Option.some.inj h]
      exact hs.of_start hcond.1 hcond.2.1
    · exact absurd h (by simp)
  | pool l =>
    dsimp only at h
    split at h
    · next hruns =>
      obtain ⟨p, hp, rfl⟩ := Option.map_eq_some_iff.mp h
      have hkept := hs.of_pool hruns hp
      split
      · next i hi =>
        have hlate := State.touch_late (hs.early_of_worker hruns hi hp) i (s.pool.uses l)
        exact ⟨hkept.reached, hlate.trans hs.safe, hkept.early, hkept.created, hkept.waiting,
          hkept.past⟩
      · exact hkept
    · exact absurd h (by simp)
  | finish ok =>
    dsimp only at h
    split at h
    · next hcond =>
      -- `main` has joined every worker
      have hexited : ∀ i, s.pool.worker i = .exited := fun i =>
        hs.reached.joined.exited i (by simp [hcond.2, MainPc.joined])
      split at h
      all_goals
        rw [← Option.some.inj h]
        exact ⟨hs.reached, hs.safe, fun hpast => absurd hpast (by simp [Stage.past]), hs.created,
          hs.waiting, fun _ i _ => hexited i⟩
    · exact absurd h (by simp)
  | free =>
    dsimp only at h
    split at h
    · next hstage =>
      rw [← Option.some.inj h]
      exact ⟨hs.reached, hs.safe, fun hpast => absurd hpast (by simp [Stage.past]), hs.created,
        hs.waiting, fun _ => hs.past (by simp [hstage, Stage.past])⟩
    · next hstage =>
      rw [← Option.some.inj h]
      exact ⟨hs.reached, hs.safe, fun hpast => absurd hpast (by simp [Stage.past]), hs.created,
        hs.waiting, fun _ => hs.past (by simp [hstage, Stage.past])⟩
    · exact absurd h (by simp)

end Kept

theorem kept_initial (queueMax sockfd : ℕ) (base : List ℕ) (requests : Fin n → HttpRequest) :
    Kept queueMax (State.initial queueMax sockfd base requests) where
  reached := reached_initial queueMax sockfd base requests
  safe := rfl
  early _ := rfl
  created _ hi := absurd hi (by simp [State.initial])
  waiting _ _ := rfl
  past hpast := absurd hpast (by simp [State.initial, Stage.past])

/-- **What the workers share outlives them**, in every run in which `pthread_create` fails at
most for the first thread: no worker uses the queue, its arguments, the configuration or
the log once `main` has freed it. -/
theorem safe_of_failsFirst (sc : ServerConf) (queueMax sockfd : ℕ) (base : List ℕ)
    (requests : Fin n → HttpRequest) {ls : List (Label n)}
    (hfails : Along (step sc sockfd) FailsFirst
      (State.initial queueMax sockfd base requests) ls) :
    Throughout (step sc sockfd) Safe (State.initial queueMax sockfd base requests) ls := by
  intro ms ns t hsplit ht
  subst hsplit
  have hkept : Kept queueMax t :=
    run_invariant_along (fun s l s' hs hl h => hs.of_step hl h)
      (kept_initial queueMax sockfd base requests) hfails.of_append ht
  exact hkept.safe

/-- Two workers at a queue with one place. -/
def twoWorkers : State 2 := State.initial 1 4 [0, 1, 2, 3] fun _ => .zeroed

/-- Both threads are created and start.  One serves a client, and the other is asleep in
`queue_pop` when `SIGINT` arrives; `main` wakes it, joins both and frees what they used. -/
def bothCreated : List (Label 2) :=
  [.create true, .start 0, .pool (.worker 0), .create true, .serve, .start 1] ++
    List.map .pool
      [.monitor (.lock (.worker 0)), .monitor (.critical (.worker 0) ∅),
        .main, .accept 5, .monitor (.lock .main), .monitor (.critical .main {.worker 0}), .main,
        .monitor (.lock (.worker 0)), .monitor (.critical (.worker 0) ∅),
        .worker 0, .monitor (.lock (.worker 0)), .monitor (.critical (.worker 0) ∅), .worker 0,
        .worker 1, .monitor (.lock (.worker 1)), .monitor (.critical (.worker 1) ∅),
        .received 0 Worker.optionsConnection, .worker 0, .worker 0,
        .monitor (.lock (.worker 0)), .monitor (.critical (.worker 0) ∅), .worker 0,
        .worker 0, .worker 0, .worker 0,
        .monitor .sigint, .worker 0, .main, .monitor (.lock .main),
        .monitor (.critical .main {.worker 1}), .monitor (.lock (.worker 1)),
        .monitor (.critical (.worker 1) ∅), .worker 1,
        .main, .monitor (.lock .main), .monitor (.critical .main ∅), .main, .main,
        .monitor (.lock .main), .monitor (.critical .main ∅), .main, .main, .main] ++
    [.finish true, .free, .free, .free, .free, .free]

theorem bothCreated_safe :
    ∃ s, run (step sampleConf 4) twoWorkers bothCreated = some s ∧
      s.created = 2 ∧ s.freed = [.queue, .conf, .log, .args] ∧ s.stage = .returned ∧
      Throughout (step sampleConf 4) Safe twoWorkers bothCreated := by
  have hfails : Along (step sampleConf 4) FailsFirst twoWorkers bothCreated := by decide +kernel
  have hrun : (run (step sampleConf 4) twoWorkers bothCreated).map
      (fun s => (s.created, s.freed, s.stage)) =
      some (2, [.queue, .conf, .log, .args], .returned) := by decide +kernel
  obtain ⟨s, hs, hvals⟩ := Option.map_eq_some_iff.mp hrun
  simp only [Prod.mk.injEq] at hvals
  obtain ⟨hcreated, hfreed, hstage⟩ := hvals
  exact ⟨s, hs, hcreated, hfreed, hstage,
    safe_of_failsFirst sampleConf 1 4 [0, 1, 2, 3] _ hfails⟩

/-- The first thread is in `queue_pop` when the second cannot be created.  `main` frees the
queue, and the thread goes on to lock its mutex. -/
def secondNotCreated : List (Label 2) :=
  [.create true, .start 0, .pool (.worker 0), .create false, .free,
    .pool (.monitor (.lock (.worker 0)))]

theorem secondNotCreated_not_safe :
    ∃ s, run (step sampleConf 4) twoWorkers secondNotCreated = some s ∧
      s.late = [(0, .queue)] ∧ ¬ Safe s := by
  have hrun : (run (step sampleConf 4) twoWorkers secondNotCreated).map (fun s => s.late) =
      some [(0, .queue)] := by decide +kernel
  obtain ⟨s, hs, hlate⟩ := Option.map_eq_some_iff.mp hrun
  exact ⟨s, hs, hlate, by simp [Safe, hlate]⟩

end Lifetime
end Pool
end BareHttp
