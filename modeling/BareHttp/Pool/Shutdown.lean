import BareHttp.Pool.Joining
import BareHttp.Queue.Progress

/-!
# Shutting down

Between `SIGINT` and the last join somebody should always be able to go on without a
client that connects or sends.  A signal can interrupt `accept`, which then fails; that is
recorded beside the state of the pool (`interrupted`), and a signal that is handled
anywhere else only sets the flag.  Wakeups without a signal are left out here, and a
worker that sends to a client or runs a script is taken to return from that: the steps of
the pool assume it.

The flag alone wakes nobody.  `main` asleep in `queue_push` is woken by a pop, and no
worker pops once the flag is set; `main` in `accept` is woken by a client, unless the
signal interrupted it; a worker asleep in `queue_pop` is woken by the broadcast of
`queue_shutdown`, which has been spent if `accept` had failed before the signal.  These
are the points at which a signal is lost (`Heeds`).  A signal that finds the threads
elsewhere is heeded, and then nobody sleeps that nobody wakes: whoever is in a function of
the queue goes on there (`Monitor.exists_step_of_call`), a worker that reads is on a
connection `main` has shut down (`Noticed`), and the others are between two calls.
-/

namespace BareHttp
namespace Pool

open Transition

variable {n : ℕ}

theorem transfer_monitor (s : State n) (l : Monitor.Label (Thread n))
    (m : Monitor.State (Thread n)) : (s.transfer l m).monitor = m := by
  unfold State.transfer
  split
  · split <;> rfl
  · split <;> rfl
  · rfl

/-- Nothing is done at the queue, or one step. -/
def OneAtQueue (s s' : State n) : Prop :=
  s'.monitor = s.monitor ∨ ∃ ml, Monitor.step s.monitor ml = some s'.monitor

namespace OneAtQueue

variable {s s' u : State n}

theorem of_same (h : some u = some s') (hm : u.monitor = s.monitor) : OneAtQueue s s' := by
  rw [← Option.some.inj h]
  exact .inl hm

theorem of_call {t : Thread n} {c : QueueCall} (h : u.call t c = some s')
    (hm : u.monitor = s.monitor) : OneAtQueue s s' := by
  obtain ⟨m, hstep, rfl⟩ := Option.map_eq_some_iff.mp h
  exact .inr ⟨_, hm ▸ hstep⟩

theorem of_scan {i : ℕ} (h : s.scan i = some s') : OneAtQueue s s' := by
  unfold State.scan at h
  split at h
  · exact of_call h rfl
  · exact of_same h rfl

theorem of_transfer (ml : Monitor.Label (Thread n))
    (h : (Monitor.step s.monitor ml).map (s.transfer ml) = some s') : OneAtQueue s s' := by
  obtain ⟨m, hm, rfl⟩ := Option.map_eq_some_iff.mp h
  exact .inr ⟨ml, by rw [hm, transfer_monitor]⟩

theorem of_perform {i : Fin n} {k fd : ℕ} {c : SysCall} {cs : List SysCall}
    (h : s.perform i k fd cs c = some s') : OneAtQueue s s' := by
  cases c with
  | openFile f =>
    simp only [State.perform] at h
    split at h
    · exact absurd h (by simp)
    · exact of_same h rfl
  | unregister => exact of_call h rfl
  | closeFile | send | sendfile | epipe | shutdown | close => exact of_same h rfl

theorem of_stepMain {sockfd : ℕ} (h : s.stepMain sockfd = some s') : OneAtQueue s s' := by
  unfold State.stepMain at h
  split at h
  · split at h
    · exact of_call h rfl
    · exact of_same h rfl
  · exact of_same h rfl
  · exact of_scan h
  · split at h
    · exact of_same h rfl
    · exact of_same h rfl
  · exact of_same h rfl
  · exact of_same h rfl
  · split at h
    · exact of_scan h
    · exact absurd h (by simp)
  · exact of_same h rfl
  · exact absurd h (by simp)

theorem of_stepWorker {i : Fin n} (h : s.stepWorker i = some s') : OneAtQueue s s' := by
  unfold State.stepWorker at h
  split at h
  · split at h
    · exact of_same h rfl
    · exact of_call h rfl
  · split at h
    · exact of_same h rfl
    · exact absurd h (by simp)
  · split at h
    · exact of_same h rfl
    · exact of_call h rfl
  · exact of_same h rfl
  · exact of_perform h
  · exact of_same h rfl
  · exact of_same h rfl
  · exact absurd h (by simp)

end OneAtQueue

/-- What a step of the pool does at the queue is a step there. -/
theorem monitor_of_step {sc : ServerConf} {sockfd : ℕ} {s s' : State n} {l : Label n}
    (h : step sc sockfd s l = some s') : OneAtQueue s s' := by
  cases l with
  | monitor ml =>
    cases ml with
    | call => exact absurd h (by simp [step])
    | lock t => exact .of_transfer (.lock t) h
    | critical t woken => exact .of_transfer (.critical t woken) h
    | spurious t => exact .of_transfer (.spurious t) h
    | sigint => exact .of_transfer .sigint h
  | accept fd =>
    simp only [step] at h
    split at h
    · exact .of_call h rfl
    · exact absurd h (by simp)
  | acceptFails =>
    simp only [step] at h
    split at h
    · exact .of_call h rfl
    · exact absurd h (by simp)
  | main => exact .of_stepMain h
  | worker i => exact .of_stepWorker h
  | recv i =>
    simp only [step] at h
    split at h
    · exact .of_same h rfl
    · exact absurd h (by simp)
  | received i c =>
    simp only [step] at h
    split at h
    · split at h
      · exact absurd h (by simp)
      · exact .of_same h rfl
    · exact absurd h (by simp)

/-- `main` is behind the broadcast of `queue_shutdown`. -/
def State.hasBroadcast (s : State n) : Bool :=
  match s.main with
  | .looping => false
  | .accepting => false
  | .pushing _ _ => false
  | .stopping => (s.monitor.phase .main).call = none
  | _ => true

namespace Move

variable {sc : ServerConf} {queueMax sockfd : ℕ} {s s' : State n} {l : Label n}

/-- `main` was behind the broadcast before, or makes it in this step. -/
theorem hasBroadcast_cases (h : Move sc sockfd s l s') (hb : s'.hasBroadcast = true) :
    s.hasBroadcast = true ∨
      s'.monitor = s.monitor.finish .main s.monitor.queue none (s.monitor.sleepers .notEmpty) := by
  have hstay : s'.main = s.main →
      (s.monitor.phase .main).Alike (s'.monitor.phase .main) → s.hasBroadcast = true := by
    intro hmain halike
    rw [← hb]
    simp only [State.hasBroadcast, hmain, halike.1]
  cases h with
  | quiet _ _ halike => exact .inl (hstay rfl (halike _))
  | broadcast hmain hin hwoken => exact .inr (by rw [hwoken])
  | stored hmain | refused hmain => exact absurd hb (by simp [State.hasBroadcast, hmain])
  | accepts | waits | loops => exact absurd hb (by simp [State.hasBroadcast])
  | breaks | stops =>
    exact absurd hb (by simp [State.hasBroadcast, Monitor.enter_phase_self, Monitor.Phase.call])
  | scans hhead | joins hhead =>
    rcases hhead with ⟨hmain, hcall, -⟩ | ⟨j, hmain, -, -⟩
    · exact .inl (by simp [State.hasBroadcast, hmain, hcall])
    · exact .inl (by simp [State.hasBroadcast, hmain])
  | looked hmain | finds hmain | findsNone hmain | shuts hmain | closes hmain | returns hmain =>
    exact .inl (by simp [State.hasBroadcast, hmain])
  | taken | missed | registered | unregistered =>
    exact .inl (hstay rfl (Monitor.finish_alike _ _ _ (by simp)))
  | pops | registers | unregisters => exact .inl (hstay rfl (Monitor.enter_alike _ (by simp)))
  | exits | reads | opensFile | closesFile | uses | closesConnection | repeats | resumes | recv
  | received => exact .inl (hstay rfl (.refl _))

/-- Nobody goes to `accept` once the flag is set. -/
theorem accepting_of_sigint (h : Move sc sockfd s l s') (hsigint : s.monitor.sigint = true)
    (hmain : s'.main = .accepting) : s.main = .accepting := by
  cases h with
  | waits _ hnot => exact absurd (hsigint.symm.trans hnot) (by simp)
  | accepts | breaks | stops | loops | scans | joins | finds | findsNone | shuts | closes
  | returns => exact absurd hmain (by simp)
  | _ => exact hmain

end Move

/-- A worker sleeps on `not_empty`. -/
theorem Consistent.worker_sleepsOn {queueMax : ℕ} {s : State n} (hc : Consistent queueMax s)
    (ho : Monitor.Orderly s.monitor) {i : Fin n} {on : Condition}
    (hi : (s.monitor.phase (.worker i)).sleepsOn = some on) : on = .notEmpty := by
  cases hp : s.monitor.phase (.worker i) with
  | asleep c on' =>
    obtain rfl : on' = on := by simpa [hp, Monitor.Phase.sleepsOn] using hi
    rcases ho.asleep _ c on' hp with ⟨fd, rfl, -⟩ | ⟨-, hon⟩
    · have hat := hc.workerAt i
      rw [hp] at hat
      exact absurd rfl (hat.ne_mains_calls.1 fd)
    · exact hon
  | ready | locking | inside => exact absurd hi (by simp [hp, Monitor.Phase.sleepsOn])

/-- The broadcast leaves no worker asleep. -/
theorem Consistent.awake_of_broadcast {queueMax : ℕ} {s : State n} (hc : Consistent queueMax s)
    (ho : Monitor.Orderly s.monitor) (q : Queue) (r : Option ℕ) (i : Fin n) :
    ((s.monitor.finish .main q r (s.monitor.sleepers .notEmpty)).phase
      (.worker i)).sleepsOn = none := by
  simp only [Monitor.State.finish, Function.update_of_ne (show Thread.worker i ≠ .main by simp)]
  split
  · simp
  · next hnot =>
    cases hon : (s.monitor.phase (.worker i)).sleepsOn with
    | none => rfl
    | some on =>
      rw [hc.worker_sleepsOn ho hon] at hon
      exact absurd (by simp [Monitor.State.sleepers, hon]) hnot

/-- A thread between two calls can make one. -/
theorem State.isSome_call {s : State n} {t : Thread n} (c : QueueCall)
    (ht : (s.monitor.phase t).call = none) : (s.call t c).isSome := by
  rw [State.call, Option.isSome_map, Monitor.step, Monitor.Phase.eq_ready ht]
  rfl

theorem State.isSome_scan {s : State n} (i : ℕ) (hmain : (s.monitor.phase .main).call = none) :
    (s.scan i).isSome := by
  unfold State.scan
  split
  · exact isSome_call _ hmain
  · rfl

namespace Shutdown

/-- The pool, and whether a signal has interrupted `accept`. -/
structure State (n : ℕ) where
  pool : Pool.State n
  interrupted : Bool

/-- A step of the pool, or a signal.  It may interrupt `main` in `accept`, or be handled
by another thread or at another point. -/
inductive Label (n : ℕ) where
  | pool (l : Pool.Label n)
  | signal (interrupts : Bool)

/-- The steps of the pool but the signal and the wakeups without one. -/
def Plain : Pool.Label n → Bool
  | .monitor (.spurious _) => false
  | .monitor .sigint => false
  | _ => true

/-- One step. -/
def step (sc : ServerConf) (sockfd : ℕ) (s : State n) : Label n → Option (State n)
  | .pool l =>
    if Plain l then (Pool.step sc sockfd s.pool l).map fun p => { s with pool := p } else none
  | .signal interrupts =>
    if interrupts = true → s.pool.main = .accepting then
      (Pool.step sc sockfd s.pool (.monitor .sigint)).map fun p =>
        ⟨p, s.interrupted || interrupts⟩
    else none

/-- The state behind the pool loop. -/
def State.initial (queueMax sockfd : ℕ) (base : List ℕ) (requests : Fin n → HttpRequest) :
    State n :=
  ⟨Pool.State.initial queueMax sockfd base requests, false⟩

/-- The steps that need no client that connects or sends.  `accept` fails by itself once it
was interrupted; `recv` returns by itself on a connection that `main` has shut down, and
also after a while if `timeout_ms` is set. -/
def Independent (timeouts : Bool) (s : State n) : Pool.Label n → Prop
  | .monitor (.lock _) => True
  | .monitor (.critical _ _) => True
  | .main => True
  | .worker _ => True
  | .acceptFails => s.interrupted = true
  | .received i c => c.pieces = [] ∧
      ((timeouts = true ∧ c.ending = .timeout) ∨
        (c.ending = .closed ∧ ∃ k fd, s.pool.worker i = .reading k fd ∧ ShutDown s.pool k))
  | _ => False

/-- Some thread can go on without a client that connects or sends.  A worker in front of an
`open` always can, under the number the call returns; the model has fixed that number with
the request. -/
def Runnable (sc : ServerConf) (sockfd : ℕ) (timeouts : Bool) (s : State n) : Prop :=
  (∃ l, Independent timeouts s l ∧ (step sc sockfd s (.pool l)).isSome) ∨
    ∃ i k fd f cs, s.pool.worker i = .acting k fd (.openFile f :: cs)

namespace Runnable

variable {sc : ServerConf} {sockfd : ℕ} {timeouts : Bool} {s : State n}

theorem of_pool {l : Pool.Label n} (hl : Independent timeouts s l) (hplain : Plain l = true)
    (h : (Pool.step sc sockfd s.pool l).isSome) : Runnable sc sockfd timeouts s := by
  refine .inl ⟨l, hl, ?_⟩
  rw [step, if_pos hplain, Option.isSome_map]
  exact h

theorem of_main (h : (s.pool.stepMain sockfd).isSome) : Runnable sc sockfd timeouts s :=
  of_pool (l := .main) trivial rfl h

theorem of_worker {i : Fin n} (h : (s.pool.stepWorker i).isSome) :
    Runnable sc sockfd timeouts s :=
  of_pool (l := .worker i) trivial rfl h

/-- A thread that is in a function of the queue and awake. -/
theorem of_call (ho : Monitor.Orderly s.pool.monitor) {t : Thread n} {c : QueueCall}
    (hcall : (s.pool.monitor.phase t).call = some c)
    (hawake : (s.pool.monitor.phase t).sleepsOn = none) : Runnable sc sockfd timeouts s := by
  obtain ⟨l, m, hstep, u, rfl | ⟨woken, rfl⟩⟩ := Monitor.exists_step_of_call ho hcall hawake
  · refine of_pool (l := .monitor (.lock u)) trivial rfl ?_
    rw [Pool.step, hstep]
    · rfl
    · simp
  · refine of_pool (l := .monitor (.critical u woken)) trivial rfl ?_
    rw [Pool.step, hstep]
    · rfl
    · simp

/-- A worker whose `recv` returns without any data. -/
theorem of_reading {i : Fin n} {k fd : ℕ} (hpc : s.pool.worker i = .reading k fd)
    (hor : timeouts = true ∨ ShutDown s.pool k) : Runnable sc sockfd timeouts s := by
  have henabled : ∀ e, (Pool.step sc sockfd s.pool
      (.received i { silentConnection with ending := e })).isSome := by
    intro e
    have hread : (Worker.receive (s.pool.memory i) [] e).1 ≠ .overrun := by
      cases e <;> simp [Worker.receive, Worker.readHeader, Worker.Ending.inHeaders]
    simp [Pool.step, hpc, silentConnection, hread]
  rcases hor with htimeout | hshut
  · exact of_pool (l := .received i { silentConnection with ending := .timeout })
      ⟨rfl, .inl ⟨htimeout, rfl⟩⟩ rfl (henabled .timeout)
  · exact of_pool (l := .received i { silentConnection with ending := .closed })
      ⟨rfl, .inr ⟨rfl, k, fd, hpc, hshut⟩⟩ rfl (henabled .closed)

/-- A worker in front of a system call. -/
theorem of_acting {i : Fin n} {k fd : ℕ} {cs : List SysCall}
    (hpc : s.pool.worker i = .acting k fd cs)
    (hcall : (s.pool.monitor.phase (.worker i)).call = none) : Runnable sc sockfd timeouts s := by
  cases cs with
  | nil => exact of_worker (i := i) (by simp [State.stepWorker, hpc])
  | cons c cs =>
    cases c with
    | openFile f => exact .inr ⟨i, k, fd, f, cs, hpc⟩
    | unregister =>
      refine of_worker (i := i) ?_
      simp only [State.stepWorker, hpc, State.perform]
      exact State.isSome_call _ hcall
    | closeFile | send | sendfile | epipe | shutdown | close =>
      exact of_worker (i := i) (by simp [State.stepWorker, hpc, State.perform])

end Runnable

/-- `main` has joined all workers. -/
def HasJoined (s : State n) : Prop :=
  s.pool.main = .closingListener ∨ s.pool.main = .done

/-- **No deadlock**: once the flag is set and until the workers are joined, somebody can go
on. -/
def Live (sc : ServerConf) (sockfd : ℕ) (timeouts : Bool) (s : State n) : Prop :=
  s.pool.monitor.sigint = true → ¬ HasJoined s → Runnable sc sockfd timeouts s

/-- The first signal is not lost: it does not find `main` in an `accept` that it does not
interrupt, `main` asleep in `queue_push`, or a worker asleep in `queue_pop` behind the
broadcast.  And where `recv` does not time out, `main` can notice every worker that reads. -/
def Heeds (timeouts : Bool) (s : State n) : Label n → Prop
  | .pool l => timeouts = false → Notices s.pool l
  | .signal interrupts => s.pool.monitor.sigint = false →
      (s.pool.main = .accepting → interrupts = true) ∧
      (s.pool.monitor.phase .main).sleepsOn = none ∧
      (s.pool.hasBroadcast = true →
        ∀ i, (s.pool.monitor.phase (.worker i)).sleepsOn = none)

instance (timeouts : Bool) (s : State n) (l : Label n) : Decidable (Heeds timeouts s l) :=
  match l with
  | .pool l => inferInstanceAs (Decidable (timeouts = false → Notices s.pool l))
  | .signal interrupts => inferInstanceAs (Decidable (s.pool.monitor.sigint = false →
      (s.pool.main = .accepting → interrupts = true) ∧
      (s.pool.monitor.phase .main).sleepsOn = none ∧
      (s.pool.hasBroadcast = true →
        ∀ i, (s.pool.monitor.phase (.worker i)).sleepsOn = none)))

/-- What holds behind a signal that was heeded. -/
structure Heeded (s : State n) : Prop where
  accept : s.pool.main = .accepting → s.interrupted = true
  main : (s.pool.monitor.phase .main).sleepsOn = none
  worker : s.pool.hasBroadcast = true →
    ∀ i, (s.pool.monitor.phase (.worker i)).sleepsOn = none

/-- What a run keeps in which every signal is heeded. -/
structure Ready (queueMax : ℕ) (timeouts : Bool) (s : State n) : Prop where
  reached : Reached queueMax s.pool
  placed : ∃ place, Placed place s.pool
  orderly : Monitor.Orderly s.pool.monitor
  noticed : timeouts = false → Noticed s.pool
  heeded : s.pool.monitor.sigint = true → Heeded s

namespace Ready

variable {sc : ServerConf} {queueMax sockfd : ℕ} {timeouts : Bool} {s s' : State n} {l : Label n}

/-- **Behind a signal that was heeded nobody goes to sleep for good.** -/
theorem heeded_pool (hs : Ready queueMax timeouts s) (hsigint : s.pool.monitor.sigint = true)
    {l : Pool.Label n} {p : Pool.State n} (h : Pool.step sc sockfd s.pool l = some p) :
    Heeded { s with pool := p } := by
  have hold := hs.heeded hsigint
  have hmove := hs.reached.consistent.move h
  have hawake : ∀ t, (s.pool.monitor.phase t).sleepsOn = none →
      (p.monitor.phase t).sleepsOn = none := by
    intro t ht
    cases hp : (p.monitor.phase t).sleepsOn with
    | none => rfl
    | some on =>
      rcases monitor_of_step h with heq | ⟨ml, hml⟩
      · rw [heq] at hp
        exact absurd (ht.symm.trans hp) (by simp)
      · exact absurd (ht.symm.trans (Monitor.sleepsOn_of_sigint hml hsigint hp)) (by simp)
  refine ⟨fun hacc => hold.accept (hmove.accepting_of_sigint hsigint hacc),
    hawake .main hold.main, fun hb i => ?_⟩
  rcases hmove.hasBroadcast_cases hb with hbefore | hnow
  · exact hawake (.worker i) (hold.worker hbefore i)
  · show (p.monitor.phase (.worker i)).sleepsOn = none
    rw [hnow]
    exact hs.reached.consistent.awake_of_broadcast hs.orderly _ _ i

theorem of_pool (hs : Ready queueMax timeouts s) {l : Pool.Label n} {p : Pool.State n}
    (hl : timeouts = false → Notices s.pool l) {b : Bool}
    (hheeded : p.monitor.sigint = true → Heeded ⟨p, b⟩)
    (h : Pool.step sc sockfd s.pool l = some p) : Ready queueMax timeouts ⟨p, b⟩ := by
  have hmove := hs.reached.consistent.move h
  obtain ⟨place, hp⟩ := hs.placed
  refine ⟨hs.reached.of_step h, hp.of_move hs.reached.consistent hmove, ?_,
    fun ht => (hs.noticed ht).of_move hs.reached hp (hl ht) hmove, hheeded⟩
  show Monitor.Orderly p.monitor
  rcases monitor_of_step h with heq | ⟨ml, hml⟩
  · rw [heq]
    exact hs.orderly
  · exact hs.orderly.of_step hml

theorem of_step (hs : Ready queueMax timeouts s) (hl : Heeds timeouts s l)
    (h : step sc sockfd s l = some s') : Ready queueMax timeouts s' := by
  cases l with
  | pool l =>
    simp only [step] at h
    split at h
    · next hplain =>
      obtain ⟨p, hp, rfl⟩ := Option.map_eq_some_iff.mp h
      refine hs.of_pool hl (fun hsigint => hs.heeded_pool ?_ hp) hp
      -- the flag was set before, since the step is not the signal
      rcases (hs.reached.consistent.move hp).sigint_eq with heq | ⟨rfl, -⟩
      · exact heq.symm.trans hsigint
      · exact absurd hplain (by simp [Plain])
    · exact absurd h (by simp)
  | signal interrupts =>
    simp only [step] at h
    split at h
    · obtain ⟨p, hp, rfl⟩ := Option.map_eq_some_iff.mp h
      have hnotices : timeouts = false → Notices s.pool (.monitor .sigint) := fun _ => trivial
      refine hs.of_pool hnotices (fun _ => ?_) hp
      obtain rfl : { s.pool with monitor := { s.pool.monitor with sigint := true } } = p := by
        simpa [Pool.step, Monitor.step, State.transfer] using hp
      cases hsigint : s.pool.monitor.sigint with
      | true =>
        have hold := hs.heeded hsigint
        exact ⟨fun hacc => by simp [hold.accept hacc], hold.main, hold.worker⟩
      | false =>
        obtain ⟨hacc, hmain, hworker⟩ := hl hsigint
        exact ⟨fun h => by simp [hacc h], hmain, hworker⟩
    · exact absurd h (by simp)

/-- A worker that has not left its loop can go on, or `main` can if it waits for it. -/
theorem runnable_of_joining (hs : Ready queueMax timeouts s)
    (hsigint : s.pool.monitor.sigint = true) {i : Fin n} (hmain : s.pool.main = .joining i) :
    Runnable sc sockfd timeouts s := by
  have hawake := (hs.heeded hsigint).worker (by simp [State.hasBroadcast, hmain]) i
  have hat := hs.reached.consistent.workerAt i
  -- in a function of the queue, or behind it
  have hor : ∀ {c : QueueCall}, (s.pool.monitor.phase (.worker i)).call = some c →
      Runnable sc sockfd timeouts s := fun hcall => .of_call hs.orderly hcall hawake
  cases hpc : s.pool.worker i with
  | top => exact .of_worker (i := i) (by simp [State.stepWorker, hpc, hsigint])
  | popping =>
    rw [hpc] at hat
    rcases hat with hcall | ⟨hcall, hresult⟩
    · exact hor hcall
    · have hready := Monitor.Phase.eq_ready hcall
      rw [hresult] at hready
      exact .of_worker (i := i) (by simp [State.stepWorker, hpc, hready, hsigint])
  | popped k =>
    rw [hpc] at hat
    obtain ⟨hcall, fd, hresult⟩ := hat
    have hready := Monitor.Phase.eq_ready hcall
    rw [hresult] at hready
    exact .of_worker (i := i) (by simp [State.stepWorker, hpc, hready, hsigint])
  | registering k fd =>
    rw [hpc] at hat
    rcases hat with hcall | hcall
    · exact hor hcall
    · have hready := Monitor.Phase.eq_ready hcall
      exact .of_worker (i := i) (by rw [State.stepWorker, hpc, hready]; rfl)
  | reading k fd =>
    refine .of_reading hpc ?_
    cases htimeouts : timeouts with
    | true => exact .inl rfl
    | false => exact .inr ((hs.noticed htimeouts).released i k fd hmain hpc)
  | acting k fd cs =>
    rw [hpc] at hat
    exact .of_acting hpc hat
  | unregistering k fd cs =>
    rw [hpc] at hat
    rcases hat with hcall | hcall
    · exact hor hcall
    · have hready := Monitor.Phase.eq_ready hcall
      exact .of_worker (i := i) (by rw [State.stepWorker, hpc, hready]; rfl)
  | exited =>
    refine .of_main ?_
    simp only [State.stepMain, hmain, hpc, if_true]
    exact State.isSome_scan _ (hs.reached.consistent.main_call hmain (by simp [MainAt]))

/-- **Somebody can go on.** -/
theorem live (hs : Ready queueMax timeouts s) : Live sc sockfd timeouts s := by
  intro hsigint hjoined
  have hold := hs.heeded hsigint
  have hat := hs.reached.consistent.mainAt
  have hor : ∀ {c : QueueCall}, (s.pool.monitor.phase .main).call = some c →
      Runnable sc sockfd timeouts s := fun hcall => .of_call hs.orderly hcall hold.main
  cases hmain : s.pool.main with
  | looping =>
    rw [hmain] at hat
    refine .of_main ?_
    simp only [State.stepMain, hmain, hsigint, if_true]
    exact State.isSome_call _ hat
  | accepting =>
    rw [hmain] at hat
    refine .of_pool (l := .acceptFails) (hold.accept hmain) rfl ?_
    simp only [Pool.step, hmain, if_true]
    exact State.isSome_call _ hat
  | pushing k fd =>
    rw [hmain] at hat
    rcases hat with hcall | hcall
    · exact hor hcall
    · have hready := Monitor.Phase.eq_ready hcall
      exact .of_main (by rw [State.stepMain, hmain, hready]; rfl)
  | stopping =>
    rw [hmain] at hat
    rcases hat with hcall | hcall
    · exact hor hcall
    · refine .of_main ?_
      rw [State.stepMain, hmain, Monitor.Phase.eq_ready hcall]
      exact State.isSome_scan 0 hcall
  | scanning i =>
    rw [hmain] at hat
    rcases hat with hcall | ⟨hcall, fd, hresult⟩
    · exact hor hcall
    · have hready := Monitor.Phase.eq_ready hcall
      rw [hresult] at hready
      refine .of_main ?_
      simp only [State.stepMain, hmain, hready]
      split <;> rfl
  | shuttingDown i fd => exact .of_main (by rw [State.stepMain, hmain]; rfl)
  | closing i fd => exact .of_main (by rw [State.stepMain, hmain]; rfl)
  | joining i => exact hs.runnable_of_joining hsigint hmain
  | closingListener => exact absurd (.inl hmain) hjoined
  | done => exact absurd (.inr hmain) hjoined

end Ready

theorem ready_initial (queueMax sockfd : ℕ) (timeouts : Bool) (base : List ℕ)
    (requests : Fin n → HttpRequest) :
    Ready queueMax timeouts (State.initial queueMax sockfd base requests) where
  reached := reached_initial queueMax sockfd base requests
  placed := ⟨_, placed_initial queueMax sockfd base requests⟩
  orderly := Monitor.orderly_initial queueMax
  noticed _ := noticed_initial queueMax sockfd base requests
  heeded hsigint :=
    absurd hsigint (by simp [State.initial, Pool.State.initial, Monitor.State.initial])

/-- **Shutting down does not deadlock, if the signal is heeded.**  In every state of a run
of `main` and any number of workers, once the flag is set and until `main` has joined the
workers, some thread can go on without a client that connects or sends, provided that no
step of the run loses the signal. -/
theorem live_of_heeded (sc : ServerConf) (queueMax sockfd : ℕ) (timeouts : Bool)
    (base : List ℕ) (requests : Fin n → HttpRequest) {ls : List (Label n)}
    (hheeds : Along (step sc sockfd) (Heeds timeouts)
      (State.initial queueMax sockfd base requests) ls) :
    Throughout (step sc sockfd) (Live sc sockfd timeouts)
      (State.initial queueMax sockfd base requests) ls := by
  intro ms ns t hsplit ht
  subst hsplit
  have hready : Ready queueMax timeouts t :=
    run_invariant_along (fun s l s' hs hl h => hs.of_step hl h)
      (ready_initial queueMax sockfd timeouts base requests) hheeds.of_append ht
  exact hready.live

/-- One worker at a queue with one place. -/
def oneWorker : State 1 := State.initial 1 4 [0, 1, 2, 3] fun _ => .zeroed

/-- A worker waits for its client when `SIGINT` arrives and interrupts `accept`. -/
def interruptedAccept : List (Label 1) :=
  clientHanded.map .pool ++ [.pool .main, .signal true, .pool .acceptFails]

theorem interruptedAccept_live :
    ∃ s, run (step sampleConf 4) oneWorker interruptedAccept = some s ∧
      s.pool.monitor.sigint = true ∧ ¬ HasJoined s ∧ Runnable sampleConf 4 false s := by
  have hheeds : Along (step sampleConf 4) (Heeds false) oneWorker interruptedAccept := by
    decide +kernel
  have hrun : (run (step sampleConf 4) oneWorker interruptedAccept).map
      (fun s => (s.pool.monitor.sigint, s.pool.main)) = some (true, .stopping) := by
    decide +kernel
  obtain ⟨s, hs, hvals⟩ := Option.map_eq_some_iff.mp hrun
  obtain ⟨hsigint, hmain⟩ := Prod.mk.inj hvals
  have hjoined : ¬ HasJoined s := by simp [HasJoined, hmain]
  exact ⟨s, hs, hsigint, hjoined, live_of_heeded sampleConf 1 4 false [0, 1, 2, 3] _ hheeds _ [] s
    (List.append_nil _).symm hs hsigint hjoined⟩

/-- Nobody can go on where `main` sleeps in `queue_push` and every worker has left. -/
theorem not_runnable_of_asleep {sc : ServerConf} {sockfd : ℕ} {timeouts : Bool} {s : State n}
    {k fd : ℕ} {c : QueueCall} {on : Condition} (hmain : s.pool.main = .pushing k fd)
    (hasleep : s.pool.monitor.phase .main = .asleep c on)
    (hexited : ∀ i, s.pool.worker i = .exited)
    (hready : ∀ i, (s.pool.monitor.phase (.worker i)).call = none) :
    ¬ Runnable sc sockfd timeouts s := by
  -- no thread is in front of the mutex or behind it
  have hphase : ∀ t d, s.pool.monitor.phase t ≠ .locking d ∧
      s.pool.monitor.phase t ≠ .inside d := by
    intro t d
    cases t with
    | main => simp [hasleep]
    | worker i =>
      refine ⟨fun hd => ?_, fun hd => ?_⟩
      · exact absurd (hready i) (by simp [hd, Monitor.Phase.call])
      · exact absurd (hready i) (by simp [hd, Monitor.Phase.call])
  rintro (⟨l, hl, hstep⟩ | ⟨i, k, fd, f, cs, hpc⟩)
  · obtain ⟨s', hs'⟩ := Option.isSome_iff_exists.mp hstep
    simp only [step] at hs'
    split at hs'
    · obtain ⟨p, hp, -⟩ := Option.map_eq_some_iff.mp hs'
      cases l with
      | monitor ml =>
        cases ml with
        | lock t =>
          obtain ⟨m, hm, -⟩ := Option.map_eq_some_iff.mp hp
          simp only [Monitor.step] at hm
          split at hm
          · next d hd => exact (hphase t d).1 hd
          · exact absurd hm (by simp)
        | critical t woken =>
          obtain ⟨m, hm, -⟩ := Option.map_eq_some_iff.mp hp
          simp only [Monitor.step] at hm
          split at hm
          · next d hd => exact (hphase t d).2 hd
          · exact absurd hm (by simp)
        | call | spurious | sigint => exact hl
      | main => exact absurd hp (by simp [Pool.step, State.stepMain, hmain, hasleep])
      | worker i => exact absurd hp (by simp [Pool.step, State.stepWorker, hexited])
      | acceptFails => exact absurd hp (by simp [Pool.step, hmain])
      | received i c => exact absurd hp (by simp [Pool.step, hexited])
      | accept | recv => exact hl
    · exact absurd hs' (by simp)
  · exact absurd ((hexited i).symm.trans hpc) (by simp)

/-- `SIGINT` arrives while `main` sleeps with a third client at the full queue.  The worker
finishes the first one and leaves without popping. -/
def signalAtFullQueue : List (Label 1) :=
  clientHanded.map .pool ++
    [.pool .main, .pool (.accept 6), .pool (.monitor (.lock .main)),
      .pool (.monitor (.critical .main ∅)), .pool .main, .pool .main, .pool (.accept 7),
      .pool (.monitor (.lock .main)), .pool (.monitor (.critical .main ∅)), .signal false,
      .pool (.received 0 silentConnection), .pool (.worker 0),
      .pool (.monitor (.lock (.worker 0))), .pool (.monitor (.critical (.worker 0) ∅)),
      .pool (.worker 0), .pool (.worker 0), .pool (.worker 0), .pool (.worker 0),
      .pool (.worker 0)]

theorem signalAtFullQueue_deadlock :
    ∃ s, run (step sampleConf 4) oneWorker signalAtFullQueue = some s ∧
      s.pool.monitor.sigint = true ∧ ¬ HasJoined s ∧
      s.pool.monitor.phase .main = .asleep (.push 7) .notFull ∧ s.pool.worker 0 = .exited ∧
      ∀ timeouts, ¬ Runnable sampleConf 4 timeouts s := by
  have hrun : (run (step sampleConf 4) oneWorker signalAtFullQueue).map
      (fun s => (s.pool.monitor.sigint, s.pool.main, s.pool.monitor.phase .main,
        s.pool.worker 0, (s.pool.monitor.phase (.worker 0)).call)) =
      some (true, .pushing 2 7, .asleep (.push 7) .notFull, .exited, none) := by
    decide +kernel
  obtain ⟨s, hs, hvals⟩ := Option.map_eq_some_iff.mp hrun
  simp only [Prod.mk.injEq] at hvals
  obtain ⟨hsigint, hmain, hasleep, hexited, hready⟩ := hvals
  refine ⟨s, hs, hsigint, by simp [HasJoined, hmain], hasleep, hexited, fun timeouts => ?_⟩
  exact not_runnable_of_asleep hmain hasleep (fun i => by rwa [Subsingleton.elim i 0])
    (fun i => by rwa [Subsingleton.elim i 0])

end Shutdown
end Pool
end BareHttp
