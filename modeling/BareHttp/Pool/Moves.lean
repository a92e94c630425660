import BareHttp.Pool.Ownership

/-!
# What a step of the pool can do

`Pool.step` is a function of the program points, of the phases of the threads at the
queue and of the queue itself.  In a reachable state these agree: a thread is in the
function of the queue that its program point names, or right behind it with the value
that function returned (`Consistent`).  Under that agreement `Move` lists everything a
step can do, one constructor for each thing the source does between two points at
which another thread may run.  The results about whole runs are proved by cases on it.
-/

namespace BareHttp

namespace Monitor

variable {τ : Type} [DecidableEq τ]

/-- A thread enters a function of the queue. -/
def State.enter (s : State τ) (t : τ) (c : QueueCall) : State τ :=
  { s with phase := Function.update s.phase t (.locking c) }

theorem enter_phase_self (s : State τ) (t : τ) (c : QueueCall) :
    (s.enter t c).phase t = .locking c :=
  Function.update_self _ _ _

theorem enter_alike {s : State τ} {t u : τ} (c : QueueCall) (hu : u ≠ t) :
    (s.phase u).Alike ((s.enter t c).phase u) := by
  show (s.phase u).Alike (Function.update s.phase t _ u)
  rw [Function.update_of_ne hu]
  exact .refl _

theorem finish_phase_self (s : State τ) (t : τ) (q : Queue) (r : Option ℕ) (woken : Finset τ) :
    (s.finish t q r woken).phase t = .ready r := by
  simp [State.finish]

theorem finish_alike {s : State τ} {t u : τ} (q : Queue) (r : Option ℕ) (woken : Finset τ)
    (hu : u ≠ t) : (s.phase u).Alike ((s.finish t q r woken).phase u) := by
  simp only [State.finish, Function.update_of_ne hu]
  split
  · exact Phase.alike_woken _
  · exact .refl _

theorem Ok.enter {queueMax : ℕ} {s : State τ} (hs : Ok queueMax s) (t : τ) (c : QueueCall) :
    Ok queueMax (s.enter t c) := by
  refine ⟨hs.queue, hs.capacity, fun u d hu => ?_⟩
  by_cases hut : u = t
  · subst hut
    exact absurd ((enter_phase_self s u c).symm.trans hu) (by simp)
  · exact hs.holds u d ((Function.update_of_ne hut _ _).symm.trans hu)

/-- A thread that is in no call is outside with its value. -/
theorem Phase.eq_ready {p : Phase} (h : p.call = none) : p = .ready p.result := by
  cases p with
  | ready r => rfl
  | locking | inside | asleep => exact absurd h (by simp [Phase.call])

end Monitor

namespace Pool

open Transition

variable {n : ℕ}

/-- `main` is in the function its program point names, or behind it. -/
def MainAt (call : Option QueueCall) (result : Option ℕ) : MainPc n → Prop
  | .pushing _ fd => call = some (.push fd) ∨ call = none
  | .stopping => call = some .shutdown ∨ call = none
  | .scanning i => call = some (.getActiveFd i) ∨ (call = none ∧ ∃ fd, result = some fd)
  | _ => call = none

/-- A worker is in the function its program point names, or behind it. -/
def WorkerAt (i : ℕ) (call : Option QueueCall) (result : Option ℕ) : WorkerPc → Prop
  | .popping => call = some .pop ∨ (call = none ∧ result = none)
  | .popped _ => call = none ∧ ∃ fd, result = some fd
  | .registering _ fd => call = some (.addActiveFd fd i) ∨ call = none
  | .unregistering _ _ _ => call = some (.delActiveFd i) ∨ call = none
  | _ => call = none

/-- The program points agree with the phases, and the numbers of the queued connections
with the ring. -/
structure Consistent (queueMax : ℕ) (s : State n) : Prop where
  monitor : Monitor.Ok queueMax s.monitor
  mainAt : MainAt (s.monitor.phase .main).call (s.monitor.phase .main).result s.main
  workerAt : ∀ i : Fin n, WorkerAt i (s.monitor.phase (.worker i)).call
    (s.monitor.phase (.worker i)).result (s.worker i)
  length : s.queued.length = s.monitor.queue.contents.length

namespace MainAt

variable {result : Option ℕ} {pc : MainPc n}

theorem eq_pushing {fd : ℕ} (h : MainAt (some (.push fd)) result pc) :
    ∃ k, pc = .pushing k fd := by
  cases pc with
  | pushing k fd' =>
    obtain rfl : fd = fd' := by simpa [MainAt] using h
    exact ⟨k, rfl⟩
  | looping | accepting | stopping | scanning | shuttingDown | closing | joining
  | closingListener | done => exact absurd h (by simp [MainAt])

theorem eq_stopping (h : MainAt (some .shutdown) result pc) : pc = .stopping := by
  cases pc with
  | stopping => rfl
  | looping | accepting | pushing | scanning | shuttingDown | closing | joining
  | closingListener | done => exact absurd h (by simp [MainAt])

theorem eq_scanning {j : ℕ} (h : MainAt (some (.getActiveFd j)) result pc) :
    ∃ i : Fin n, i.val = j ∧ pc = .scanning i := by
  cases pc with
  | scanning i =>
    obtain rfl : j = i := by simpa [MainAt] using h
    exact ⟨i, rfl, rfl⟩
  | looping | accepting | pushing | stopping | shuttingDown | closing | joining
  | closingListener | done => exact absurd h (by simp [MainAt])

theorem ne_workers_calls {c : QueueCall} (h : MainAt (some c) result pc) :
    c ≠ .pop ∧ (∀ fd id, c ≠ .addActiveFd fd id) ∧ ∀ id, c ≠ .delActiveFd id := by
  cases pc with
  | pushing | stopping | scanning =>
    cases c <;> simp_all [MainAt]
  | looping | accepting | shuttingDown | closing | joining | closingListener | done =>
    exact absurd h (by simp [MainAt])

end MainAt

namespace WorkerAt

variable {i : ℕ} {result : Option ℕ} {pc : WorkerPc}

theorem eq_popping (h : WorkerAt i (some .pop) result pc) : pc = .popping := by
  cases pc with
  | popping => rfl
  | top | popped | registering | reading | acting | unregistering | exited =>
    exact absurd h (by simp [WorkerAt])

theorem eq_registering {fd id : ℕ} (h : WorkerAt i (some (.addActiveFd fd id)) result pc) :
    id = i ∧ ∃ k, pc = .registering k fd := by
  cases pc with
  | registering k fd' =>
    obtain ⟨rfl, rfl⟩ : fd = fd' ∧ id = i := by simpa [WorkerAt] using h
    exact ⟨rfl, k, rfl⟩
  | top | popping | popped | reading | acting | unregistering | exited =>
    exact absurd h (by simp [WorkerAt])

theorem eq_unregistering {id : ℕ} (h : WorkerAt i (some (.delActiveFd id)) result pc) :
    id = i ∧ ∃ k fd cs, pc = .unregistering k fd cs := by
  cases pc with
  | unregistering k fd cs =>
    obtain rfl : id = i := by simpa [WorkerAt] using h
    exact ⟨rfl, k, fd, cs, rfl⟩
  | top | popping | popped | registering | reading | acting | exited =>
    exact absurd h (by simp [WorkerAt])

theorem ne_mains_calls {c : QueueCall} (h : WorkerAt i (some c) result pc) :
    (∀ fd, c ≠ .push fd) ∧ (∀ id, c ≠ .getActiveFd id) ∧ c ≠ .shutdown := by
  cases pc with
  | popping | registering | unregistering =>
    cases c <;> simp_all [WorkerAt]
  | top | popped | reading | acting | exited => exact absurd h (by simp [WorkerAt])

end WorkerAt

/-- The calls that use the client's descriptor and leave it open. -/
def SysCall.uses : SysCall → Option Kind
  | .send => some .send
  | .sendfile => some .sendfile
  | .epipe => some .shutdown
  | .shutdown => some .shutdown
  | _ => none

/-- `main` is in front of the body for worker `i` of the loop that joins the workers. -/
def State.AtHead (s : State n) (i : ℕ) : Prop :=
  (s.main = .stopping ∧ (s.monitor.phase .main).call = none ∧ i = 0) ∨
    ∃ j : Fin n, s.main = .joining j ∧ s.worker j = .exited ∧ i = j + 1

/-- **Everything a step can do**, where the program points agree with the phases. -/
inductive Move (sc : ServerConf) (sockfd : ℕ) (s : State n) : Label n → State n → Prop where
  -- at the queue
  | quiet {l : Monitor.Label (Thread n)} {m : Monitor.State (Thread n)}
      (hstep : Monitor.step s.monitor l = some m) (hqueue : m.queue = s.monitor.queue)
      (halike : ∀ u, (s.monitor.phase u).Alike (m.phase u))
      (hwait : ∀ t woken, l = .critical t woken → ∃ c on, s.monitor.phase t = .inside c ∧
        c.outcome s.monitor.queue s.monitor.sigint = .wait on) :
      Move sc sockfd s (.monitor l) { s with monitor := m }
  | stored {k fd : ℕ} {woken : Finset (Thread n)} (hmain : s.main = .pushing k fd)
      (hin : s.monitor.phase .main = .inside (.push fd)) (hsigint : s.monitor.sigint = false)
      (hroom : s.monitor.queue.size ≠ s.monitor.queue.maxSize) :
      Move sc sockfd s (.monitor (.critical .main woken))
        { s with
          monitor := s.monitor.finish .main (s.monitor.queue.store fd) none woken
          queued := s.queued ++ [k] }
  | refused {k fd : ℕ} {woken : Finset (Thread n)} (hmain : s.main = .pushing k fd)
      (hin : s.monitor.phase .main = .inside (.push fd)) (hsigint : s.monitor.sigint = true) :
      Move sc sockfd s (.monitor (.critical .main woken))
        { s with monitor := s.monitor.finish .main s.monitor.queue none woken }
  | broadcast {woken : Finset (Thread n)} (hmain : s.main = .stopping)
      (hin : s.monitor.phase .main = .inside .shutdown)
      (hwoken : woken = s.monitor.sleepers .notEmpty) :
      Move sc sockfd s (.monitor (.critical .main woken))
        { s with monitor := s.monitor.finish .main s.monitor.queue none woken }
  | looked {i : Fin n} {woken : Finset (Thread n)} (hmain : s.main = .scanning i)
      (hin : s.monitor.phase .main = .inside (.getActiveFd i)) :
      Move sc sockfd s (.monitor (.critical .main woken))
        { s with
          monitor := s.monitor.finish .main s.monitor.queue
            (some (s.monitor.queue.activeFds i)) woken }
  | taken {i : Fin n} {k : ℕ} {ks : List ℕ} {woken : Finset (Thread n)}
      (hpc : s.worker i = .popping) (hin : s.monitor.phase (.worker i) = .inside .pop)
      (hsigint : s.monitor.sigint = false) (hsome : s.monitor.queue.size ≠ 0)
      (hqueued : s.queued = k :: ks) :
      Move sc sockfd s (.monitor (.critical (.worker i) woken))
        { s.goto i (.popped k) with
          monitor := s.monitor.finish (.worker i) s.monitor.queue.advance
            (some s.monitor.queue.first) woken
          queued := ks }
  | missed {i : Fin n} {woken : Finset (Thread n)} (hpc : s.worker i = .popping)
      (hin : s.monitor.phase (.worker i) = .inside .pop) (hsigint : s.monitor.sigint = true) :
      Move sc sockfd s (.monitor (.critical (.worker i) woken))
        { s with monitor := s.monitor.finish (.worker i) s.monitor.queue none woken }
  | registered {i : Fin n} {k fd : ℕ} {woken : Finset (Thread n)}
      (hpc : s.worker i = .registering k fd)
      (hin : s.monitor.phase (.worker i) = .inside (.addActiveFd fd i)) :
      Move sc sockfd s (.monitor (.critical (.worker i) woken))
        { s with
          monitor := s.monitor.finish (.worker i)
            { s.monitor.queue with
              activeFds := Function.update s.monitor.queue.activeFds i fd } none woken }
  | unregistered {i : Fin n} {k fd : ℕ} {cs : List SysCall} {woken : Finset (Thread n)}
      (hpc : s.worker i = .unregistering k fd cs)
      (hin : s.monitor.phase (.worker i) = .inside (.delActiveFd i)) :
      Move sc sockfd s (.monitor (.critical (.worker i) woken))
        { s with
          monitor := s.monitor.finish (.worker i)
            { s.monitor.queue with
              activeFds := Function.update s.monitor.queue.activeFds i 0 } none woken }
  -- `main`
  | accepts {fd : ℕ} (hmain : s.main = .accepting) (hfree : (s.table fd).isOpen = false) :
      Move sc sockfd s (.accept fd)
        { s.opens fd (.connection s.accepted) with
          accepted := s.accepted + 1
          main := .pushing s.accepted fd
          monitor := s.monitor.enter .main (.push fd) }
  | breaks (hmain : s.main = .accepting) :
      Move sc sockfd s .acceptFails
        { s with main := .stopping, monitor := s.monitor.enter .main .shutdown }
  | stops (hmain : s.main = .looping) (hsigint : s.monitor.sigint = true) :
      Move sc sockfd s .main
        { s with main := .stopping, monitor := s.monitor.enter .main .shutdown }
  | waits (hmain : s.main = .looping) (hsigint : s.monitor.sigint = false) :
      Move sc sockfd s .main { s with main := .accepting }
  | loops {k fd : ℕ} (hmain : s.main = .pushing k fd)
      (hcall : (s.monitor.phase .main).call = none) :
      Move sc sockfd s .main { s with main := .looping }
  | scans {i : Fin n} (hhead : s.AtHead i) :
      Move sc sockfd s .main
        { s with main := .scanning i, monitor := s.monitor.enter .main (.getActiveFd i) }
  | joins (hhead : s.AtHead n) :
      Move sc sockfd s .main { s with main := .closingListener }
  | finds {i : Fin n} {fd : ℕ} (hmain : s.main = .scanning i)
      (hphase : s.monitor.phase .main = .ready (some fd)) (hfd : fd ≠ 0) :
      Move sc sockfd s .main { s with main := .shuttingDown i fd }
  | findsNone {i : Fin n} (hmain : s.main = .scanning i)
      (hphase : s.monitor.phase .main = .ready (some 0)) :
      Move sc sockfd s .main { s with main := .joining i }
  | shuts {i : Fin n} {fd : ℕ} (hmain : s.main = .shuttingDown i fd) :
      Move sc sockfd s .main { s.access .main none .shutdown fd with main := .closing i fd }
  | closes {i : Fin n} {fd : ℕ} (hmain : s.main = .closing i fd) :
      Move sc sockfd s .main { s.close .main none fd with main := .joining i }
  | returns (hmain : s.main = .closingListener) :
      Move sc sockfd s .main
        { (s.access .main none .shutdown sockfd).close .main none sockfd with main := .done }
  -- a worker
  | exits {i : Fin n} (hpc : s.worker i = .top ∨ s.worker i = .popping ∨
        ∃ k, s.worker i = .popped k)
      (hcall : (s.monitor.phase (.worker i)).call = none) (hsigint : s.monitor.sigint = true) :
      Move sc sockfd s (.worker i) (s.goto i .exited)
  | pops {i : Fin n} (hpc : s.worker i = .top) (hsigint : s.monitor.sigint = false) :
      Move sc sockfd s (.worker i)
        { s.goto i .popping with monitor := s.monitor.enter (.worker i) .pop }
  | registers {i : Fin n} {k fd : ℕ} (hpc : s.worker i = .popped k)
      (hphase : s.monitor.phase (.worker i) = .ready (some fd))
      (hsigint : s.monitor.sigint = false) :
      Move sc sockfd s (.worker i)
        { s.goto i (.registering k fd) with
          monitor := s.monitor.enter (.worker i) (.addActiveFd fd i) }
  | reads {i : Fin n} {k fd : ℕ} (hpc : s.worker i = .registering k fd)
      (hcall : (s.monitor.phase (.worker i)).call = none) :
      Move sc sockfd s (.worker i) (s.goto i (.reading k fd))
  | opensFile {i : Fin n} {k fd f : ℕ} {cs : List SysCall}
      (hpc : s.worker i = .acting k fd (.openFile f :: cs)) (hfree : (s.table f).isOpen = false) :
      Move sc sockfd s (.worker i) ((s.opens f (.file i)).goto i (.acting k fd cs))
  | closesFile {i : Fin n} {k fd f : ℕ} {cs : List SysCall}
      (hpc : s.worker i = .acting k fd (.closeFile f :: cs)) :
      Move sc sockfd s (.worker i) ((s.close (.worker i) none f).goto i (.acting k fd cs))
  | uses {i : Fin n} {k fd : ℕ} {c : SysCall} {cs : List SysCall} {kind : Kind}
      (hpc : s.worker i = .acting k fd (c :: cs)) (hc : c.uses = some kind) :
      Move sc sockfd s (.worker i)
        ((s.access (.worker i) (some k) kind fd).goto i (.acting k fd cs))
  | closesConnection {i : Fin n} {k fd : ℕ} {cs : List SysCall}
      (hpc : s.worker i = .acting k fd (.close :: cs)) :
      Move sc sockfd s (.worker i) ((s.close (.worker i) (some k) fd).goto i (.acting k fd cs))
  | unregisters {i : Fin n} {k fd : ℕ} {cs : List SysCall}
      (hpc : s.worker i = .acting k fd (.unregister :: cs)) :
      Move sc sockfd s (.worker i)
        { s.goto i (.unregistering k fd cs) with
          monitor := s.monitor.enter (.worker i) (.delActiveFd i) }
  | repeats {i : Fin n} {k fd : ℕ} (hpc : s.worker i = .acting k fd []) :
      Move sc sockfd s (.worker i) (s.goto i .top)
  | resumes {i : Fin n} {k fd : ℕ} {cs : List SysCall}
      (hpc : s.worker i = .unregistering k fd cs)
      (hcall : (s.monitor.phase (.worker i)).call = none) :
      Move sc sockfd s (.worker i) (s.goto i (.acting k fd cs))
  | recv {i : Fin n} {k fd : ℕ} (hpc : s.worker i = .reading k fd) :
      Move sc sockfd s (.recv i)
        ((s.access (.worker i) (some k) .recv fd).goto i (.reading k fd))
  | received {i : Fin n} {k fd : ℕ} {c : Worker.Connection} (hpc : s.worker i = .reading k fd) :
      Move sc sockfd s (.received i c)
        { s.goto i (.acting k fd (program sc (s.memory i) c)) with
          memory := Function.update s.memory i (Worker.serve sc (s.memory i) c).2 }

/-- Entering a function of the queue, where it goes through. -/
theorem call_eq_enter {s s' : State n} {t : Thread n} {c : QueueCall}
    (h : s.call t c = some s') : s' = { s with monitor := s.monitor.enter t c } := by
  obtain ⟨m, hm, rfl⟩ := Option.map_eq_some_iff.mp h
  rcases Monitor.step_cases hm with ⟨t', c', r, hl, -, rfl⟩ | ⟨t', c', hl, -⟩ |
    ⟨t', c', on, hl, -⟩ | ⟨t', c', woken, q, r, wakes, hl, -⟩ | ⟨t', c', on, hl, -⟩ | ⟨hl, -⟩
  · obtain ⟨rfl, rfl⟩ := Monitor.Label.call.inj hl
    rfl
  all_goals exact absurd hl (by simp)

namespace Consistent

variable {sc : ServerConf} {queueMax sockfd : ℕ} {s s' : State n}

/-- `main` at the head of the loop over the workers. -/
theorem move_scan {i : ℕ} (hhead : s.AtHead i) (hi : i ≤ n) (h : s.scan i = some s') :
    Move sc sockfd s .main s' := by
  unfold State.scan at h
  split at h
  · next hlt =>
    rw [call_eq_enter h]
    exact .scans (i := ⟨i, hlt⟩) hhead
  · next hge =>
    obtain rfl : i = n := by omega
    rw [← Option.some.inj h]
    exact .joins hhead

theorem move_main (h : s.stepMain sockfd = some s') : Move sc sockfd s .main s' := by
  unfold State.stepMain at h
  split at h
  · next hmain =>
    split at h
    · next hsigint =>
      rw [call_eq_enter h]
      exact .stops hmain hsigint
    · next hsigint =>
      rw [← Option.some.inj h]
      exact .waits hmain (by simpa using hsigint)
  · next hmain hphase =>
    rw [← Option.some.inj h]
    exact .loops hmain (by rw [hphase]; rfl)
  · next hmain hphase =>
    exact move_scan (.inl ⟨hmain, by rw [hphase]; rfl, rfl⟩) (Nat.zero_le n) h
  · next i fd hmain hphase =>
    split at h
    · next hfd =>
      rw [← Option.some.inj h]
      exact .findsNone hmain (by rw [hphase, hfd])
    · next hfd =>
      rw [← Option.some.inj h]
      exact .finds hmain hphase hfd
  · next hmain =>
    rw [← Option.some.inj h]
    exact .shuts hmain
  · next hmain =>
    rw [← Option.some.inj h]
    exact .closes hmain
  · next i hmain =>
    split at h
    · next hexit => exact move_scan (.inr ⟨i, hmain, hexit, rfl⟩) i.isLt h
    · exact absurd h (by simp)
  · next hmain =>
    rw [← Option.some.inj h]
    exact .returns hmain
  · exact absurd h (by simp)

theorem move_perform {i : Fin n} {k fd : ℕ} {c : SysCall} {cs : List SysCall}
    (hpc : s.worker i = .acting k fd (c :: cs)) (h : s.perform i k fd cs c = some s') :
    Move sc sockfd s (.worker i) s' := by
  cases c with
  | openFile f =>
    simp only [State.perform] at h
    split at h
    · exact absurd h (by simp)
    · next hopen =>
      rw [← Option.some.inj h]
      exact .opensFile hpc (by simpa using hopen)
  | closeFile f =>
    rw [← Option.some.inj h]
    exact .closesFile hpc
  | close =>
    rw [← Option.some.inj h]
    exact .closesConnection hpc
  | unregister =>
    rw [call_eq_enter h]
    exact .unregisters hpc
  | send | sendfile | epipe | shutdown =>
    rw [← Option.some.inj h]
    exact .uses hpc rfl

theorem move_worker {i : Fin n} (hc : Consistent queueMax s) (h : s.stepWorker i = some s') :
    Move sc sockfd s (.worker i) s' := by
  have hat := hc.workerAt i
  unfold State.stepWorker at h
  split at h
  · next hpc =>
    rw [hpc] at hat
    split at h
    · next hsigint =>
      rw [← Option.some.inj h]
      exact .exits (.inl hpc) hat hsigint
    · next hsigint =>
      rw [call_eq_enter h]
      exact .pops hpc (by simpa using hsigint)
  · next hpc hphase =>
    split at h
    · next hsigint =>
      rw [← Option.some.inj h]
      exact .exits (.inr (.inl hpc)) (by rw [hphase]; rfl) hsigint
    · exact absurd h (by simp)
  · next k fd hpc hphase =>
    split at h
    · next hsigint =>
      rw [← Option.some.inj h]
      exact .exits (.inr (.inr ⟨k, hpc⟩)) (by rw [hphase]; rfl) hsigint
    · next hsigint =>
      rw [call_eq_enter h]
      exact .registers hpc hphase (by simpa using hsigint)
  · next hpc hphase =>
    rw [← Option.some.inj h]
    exact .reads hpc (by rw [hphase]; rfl)
  · next hpc => exact move_perform hpc h
  · next hpc =>
    rw [← Option.some.inj h]
    exact .repeats hpc
  · next hpc hphase =>
    rw [← Option.some.inj h]
    exact .resumes hpc (by rw [hphase]; rfl)
  · exact absurd h (by simp)

/-- A critical section of `main` that returns. -/
theorem move_mainSection (hc : Consistent queueMax s) {c : QueueCall}
    {woken : Finset (Thread n)} {q : Queue} {r : Option ℕ} {wakes : Wakes}
    (hin : s.monitor.phase .main = .inside c)
    (hdone : c.outcome s.monitor.queue s.monitor.sigint = .done q r wakes)
    (hwoken : Monitor.Wakes.Allows s.monitor woken wakes) :
    Move sc sockfd s (.monitor (.critical .main woken))
      (s.transfer (.critical .main woken) (s.monitor.finish .main q r woken)) := by
  have hat := hc.mainAt
  rw [hin] at hat
  cases c with
  | push fd =>
    obtain ⟨k, hmain⟩ := hat.eq_pushing
    rcases queuePush_done hdone with ⟨hsigint, rfl, rfl, -⟩ | ⟨hsigint, hroom, rfl, rfl, -⟩
    · rw [transfer_of_size_eq]
      · exact .refused hmain hin hsigint
      · rfl
    · rw [transfer_of_size_lt hmain]
      · exact .stored hmain hin hsigint hroom
      · exact Int.lt_succ _
  | shutdown =>
    obtain ⟨rfl, rfl, rfl⟩ := Outcome.done.inj hdone
    rw [transfer_of_size_eq]
    · exact .broadcast hat.eq_stopping hin hwoken
    · rfl
  | getActiveFd j =>
    obtain ⟨i, rfl, hmain⟩ := hat.eq_scanning
    obtain ⟨rfl, rfl, -⟩ := Outcome.done.inj hdone
    rw [transfer_of_size_eq]
    · exact .looked hmain hin
    · rfl
  | pop => exact absurd rfl hat.ne_workers_calls.1
  | addActiveFd fd id => exact absurd rfl (hat.ne_workers_calls.2.1 fd id)
  | delActiveFd id => exact absurd rfl (hat.ne_workers_calls.2.2 id)

/-- A critical section of a worker that returns. -/
theorem move_workerSection (hc : Consistent queueMax s) {i : Fin n} {c : QueueCall}
    {woken : Finset (Thread n)} {q : Queue} {r : Option ℕ} {wakes : Wakes}
    (hin : s.monitor.phase (.worker i) = .inside c)
    (hdone : c.outcome s.monitor.queue s.monitor.sigint = .done q r wakes) :
    Move sc sockfd s (.monitor (.critical (.worker i) woken))
      (s.transfer (.critical (.worker i) woken) (s.monitor.finish (.worker i) q r woken)) := by
  have hat := hc.workerAt i
  rw [hin] at hat
  cases c with
  | pop =>
    have hpc := hat.eq_popping
    rcases queuePop_done hdone with ⟨hsigint, rfl, rfl, -⟩ | ⟨hsigint, hsome, rfl, rfl, -⟩
    · rw [transfer_of_size_eq]
      · exact .missed hpc hin hsigint
      · rfl
    · have hlength := hc.length
      rw [hc.monitor.queue.contents_eq_cons hsome, List.length_cons] at hlength
      obtain ⟨k, ks, hqueued⟩ := List.exists_cons_of_length_eq_add_one hlength
      rw [transfer_of_lt_size hqueued]
      · exact .taken hpc hin hsigint hsome hqueued
      · exact Int.sub_lt_self _ (by decide)
  | addActiveFd fd id =>
    obtain ⟨rfl, k, hpc⟩ := hat.eq_registering
    obtain ⟨rfl, rfl, -⟩ := Outcome.done.inj hdone
    rw [transfer_of_size_eq]
    · exact .registered hpc hin
    · rfl
  | delActiveFd id =>
    obtain ⟨rfl, k, fd, cs, hpc⟩ := hat.eq_unregistering
    obtain ⟨rfl, rfl, -⟩ := Outcome.done.inj hdone
    rw [transfer_of_size_eq]
    · exact .unregistered hpc hin
    · rfl
  | push fd => exact absurd rfl (hat.ne_mains_calls.1 fd)
  | getActiveFd id => exact absurd rfl (hat.ne_mains_calls.2.1 id)
  | shutdown => exact absurd rfl hat.ne_mains_calls.2.2

theorem move_monitor (hc : Consistent queueMax s) {l : Monitor.Label (Thread n)}
    {m : Monitor.State (Thread n)} (hl : ∀ t c, l ≠ .call t c)
    (h : Monitor.step s.monitor l = some m) :
    Move sc sockfd s (.monitor l) (s.transfer l m) := by
  have hquiet : m.queue = s.monitor.queue →
      (∀ u, (s.monitor.phase u).Alike (m.phase u)) →
      (∀ t woken, l = .critical t woken → ∃ c on, s.monitor.phase t = .inside c ∧
        c.outcome s.monitor.queue s.monitor.sigint = .wait on) →
      Move sc sockfd s (.monitor l) (s.transfer l m) := by
    intro hqueue halike hwait
    rw [transfer_of_size_eq (by rw [hqueue])]
    exact .quiet h hqueue halike hwait
  rcases Monitor.step_cases h with ⟨t, c, r, rfl, -, -⟩ | ⟨t, c, rfl, ht, -, rfl⟩ |
    ⟨t, c, on, rfl, ht, hwait, rfl⟩ | ⟨t, c, woken, q, r, wakes, rfl, hin, hdone, hwoken, rfl⟩ |
    ⟨t, c, on, rfl, ht, rfl⟩ | ⟨rfl, rfl⟩
  · exact absurd rfl (hl t c)
  · exact hquiet rfl (Monitor.alike_update (by rw [ht]; exact ⟨rfl, rfl⟩)) (by simp)
  · refine hquiet rfl (Monitor.alike_update (by rw [ht]; exact ⟨rfl, rfl⟩)) ?_
    intro t' woken hl'
    obtain ⟨rfl, -⟩ := Monitor.Label.critical.inj hl'
    exact ⟨c, on, ht, hwait⟩
  · cases t with
    | main => exact hc.move_mainSection hin hdone hwoken
    | worker i => exact hc.move_workerSection hin hdone
  · exact hquiet rfl (Monitor.alike_update (by rw [ht]; exact ⟨rfl, rfl⟩)) (by simp)
  · exact hquiet rfl (fun _ => .refl _) (by simp)

/-- **Every step is one of the moves.** -/
theorem move (hc : Consistent queueMax s) {l : Label n} (h : step sc sockfd s l = some s') :
    Move sc sockfd s l s' := by
  cases l with
  | monitor l =>
    cases l with
    | call t c => exact absurd h (by simp [step])
    | lock t | critical t woken | spurious t | sigint =>
      simp only [step] at h
      obtain ⟨m, hm, rfl⟩ := Option.map_eq_some_iff.mp h
      exact hc.move_monitor (by simp) hm
  | accept fd =>
    simp only [step] at h
    split at h
    · next hacc =>
      rw [call_eq_enter h]
      exact .accepts hacc.1 hacc.2
    · exact absurd h (by simp)
  | acceptFails =>
    simp only [step] at h
    split at h
    · next hmain =>
      rw [call_eq_enter h]
      exact .breaks hmain
    · exact absurd h (by simp)
  | main => exact move_main h
  | worker i => exact hc.move_worker h
  | recv i =>
    simp only [step] at h
    split at h
    · next hpc =>
      rw [← Option.some.inj h]
      exact .recv hpc
    · exact absurd h (by simp)
  | received i c =>
    simp only [step] at h
    split at h
    · next hpc =>
      split at h
      · exact absurd h (by simp)
      · rw [← Option.some.inj h]
        exact .received hpc
    · exact absurd h (by simp)

/-! ## The agreement is kept -/

/-- A step of `main`. -/
theorem of_main (hc : Consistent queueMax s) (hm : Monitor.Ok queueMax s'.monitor)
    (hworker : s'.worker = s.worker)
    (halike : ∀ u, u ≠ .main → (s.monitor.phase u).Alike (s'.monitor.phase u))
    (hat : MainAt (s'.monitor.phase .main).call (s'.monitor.phase .main).result s'.main)
    (hlength : s'.queued.length = s'.monitor.queue.contents.length) :
    Consistent queueMax s' := by
  refine ⟨hm, hat, fun i => ?_, hlength⟩
  obtain ⟨hcall, hresult⟩ := halike (.worker i) (by simp)
  rw [hworker, hcall, hresult]
  exact hc.workerAt i

/-- A step of a worker. -/
theorem of_worker (hc : Consistent queueMax s) {i : Fin n} {pc : WorkerPc}
    (hm : Monitor.Ok queueMax s'.monitor) (hmain : s'.main = s.main)
    (hworker : s'.worker = Function.update s.worker i pc)
    (halike : ∀ u, u ≠ .worker i → (s.monitor.phase u).Alike (s'.monitor.phase u))
    (hat : WorkerAt i (s'.monitor.phase (.worker i)).call
      (s'.monitor.phase (.worker i)).result pc)
    (hlength : s'.queued.length = s'.monitor.queue.contents.length) :
    Consistent queueMax s' := by
  obtain ⟨hcall, hresult⟩ := halike .main (by simp)
  refine ⟨hm, ?_, fun j => ?_, hlength⟩
  · rw [hmain, hcall, hresult]
    exact hc.mainAt
  · rw [hworker]
    by_cases hj : j = i
    · subst hj
      rw [Function.update_self]
      exact hat
    · obtain ⟨hcall, hresult⟩ := halike (.worker j) (by simpa using hj)
      rw [Function.update_of_ne hj, hcall, hresult]
      exact hc.workerAt j

/-- A section of `main` returns. -/
theorem of_mainSection (hc : Consistent queueMax s) {c : QueueCall} {q : Queue} {r : Option ℕ}
    {woken : Finset (Thread n)} {ks : List ℕ} (hin : s.monitor.phase .main = .inside c)
    (hq : q.Ok) (hcap : q.maxSize = s.monitor.queue.maxSize) (hat : MainAt none r s.main)
    (hlength : ks.length = q.contents.length) :
    Consistent queueMax
      { s with monitor := s.monitor.finish .main q r woken, queued := ks } := by
  refine hc.of_main (hc.monitor.finish hin hq hcap r woken) rfl
    (fun u hu => Monitor.finish_alike q r woken hu) ?_ hlength
  show MainAt ((s.monitor.finish .main q r woken).phase .main).call _ s.main
  rw [Monitor.finish_phase_self]
  exact hat

/-- A section of a worker returns. -/
theorem of_workerSection (hc : Consistent queueMax s) {i : Fin n} {c : QueueCall} {q : Queue}
    {r : Option ℕ} (woken : Finset (Thread n)) {ks : List ℕ} {pc : WorkerPc}
    (hin : s.monitor.phase (.worker i) = .inside c)
    (hq : q.Ok) (hcap : q.maxSize = s.monitor.queue.maxSize) (hat : WorkerAt i none r pc)
    (hlength : ks.length = q.contents.length) :
    Consistent queueMax
      { s.goto i pc with monitor := s.monitor.finish (.worker i) q r woken, queued := ks } := by
  refine hc.of_worker (hc.monitor.finish hin hq hcap r woken) rfl rfl
    (fun u hu => Monitor.finish_alike q r woken hu) ?_ hlength
  show WorkerAt i ((s.monitor.finish (.worker i) q r woken).phase (.worker i)).call _ pc
  rw [Monitor.finish_phase_self]
  exact hat

/-- `main` enters a function of the queue. -/
theorem of_mainEnter (hc : Consistent queueMax s) {pc : MainPc n} {c : QueueCall}
    {table : ℕ → Slot} {accepted : ℕ} (hat : MainAt (some c) none pc) :
    Consistent queueMax
      { s with
        table := table
        accepted := accepted
        main := pc
        monitor := s.monitor.enter .main c } := by
  refine hc.of_main (hc.monitor.enter _ _) rfl (fun u hu => Monitor.enter_alike c hu) ?_ hc.length
  show MainAt ((s.monitor.enter .main c).phase .main).call _ pc
  rw [Monitor.enter_phase_self]
  exact hat

/-- A worker enters a function of the queue. -/
theorem of_workerEnter (hc : Consistent queueMax s) {i : Fin n} {pc : WorkerPc} {c : QueueCall}
    (hat : WorkerAt i (some c) none pc) :
    Consistent queueMax { s.goto i pc with monitor := s.monitor.enter (.worker i) c } := by
  refine hc.of_worker (hc.monitor.enter _ _) rfl rfl (fun u hu => Monitor.enter_alike c hu) ?_
    hc.length
  show WorkerAt i ((s.monitor.enter (.worker i) c).phase (.worker i)).call _ pc
  rw [Monitor.enter_phase_self]
  exact hat

/-- A worker goes on outside the queue. -/
theorem of_goto (hc : Consistent queueMax s) {i : Fin n} {pc : WorkerPc} {table : ℕ → Slot}
    {accesses : List (Access n)} {memory : Fin n → Worker.State}
    (hat : WorkerAt i (s.monitor.phase (.worker i)).call
      (s.monitor.phase (.worker i)).result pc) :
    Consistent queueMax
      { s with
        table := table
        accesses := accesses
        memory := memory
        worker := Function.update s.worker i pc } :=
  hc.of_worker hc.monitor rfl rfl (fun _ _ => .refl _) hat hc.length

/-- `main` goes on outside the queue. -/
theorem of_mainGoto (hc : Consistent queueMax s) {pc : MainPc n} {table : ℕ → Slot}
    {accesses : List (Access n)}
    (hat : MainAt (s.monitor.phase .main).call (s.monitor.phase .main).result pc) :
    Consistent queueMax { s with table := table, accesses := accesses, main := pc } :=
  hc.of_main hc.monitor rfl (fun _ _ => .refl _) hat hc.length

/-- Where its program point names no function, a thread is outside. -/
theorem worker_call (hc : Consistent queueMax s) {i : Fin n} {pc : WorkerPc}
    (hpc : s.worker i = pc) (hat : ∀ call r, WorkerAt i call r pc → call = none) :
    (s.monitor.phase (.worker i)).call = none :=
  hat _ _ (hpc ▸ hc.workerAt i)

theorem main_call (hc : Consistent queueMax s) {pc : MainPc n} (hmain : s.main = pc)
    (hat : ∀ call r, MainAt call r pc → call = none) : (s.monitor.phase .main).call = none :=
  hat _ _ (hmain ▸ hc.mainAt)

/-- **A move keeps the agreement.** -/
theorem of_move (hc : Consistent queueMax s) {l : Label n} (h : Move sc sockfd s l s') :
    Consistent queueMax s' := by
  have hq := hc.monitor.queue
  -- the section of a worker that stays where it is
  have hstay : ∀ {i : Fin n} {q : Queue} {c : QueueCall} {r : Option ℕ}
      {woken : Finset (Thread n)}, s.monitor.phase (.worker i) = .inside c → q.Ok →
      q.maxSize = s.monitor.queue.maxSize → WorkerAt i none r (s.worker i) →
      s.queued.length = q.contents.length →
      Consistent queueMax { s with monitor := s.monitor.finish (.worker i) q r woken } := by
    intro i q c r woken hin hq hcap hat hlength
    have h := hc.of_workerSection woken hin hq hcap hat hlength
    simpa only [State.goto, Function.update_eq_self] using h
  cases h with
  | quiet hstep hqueue halike =>
    refine ⟨Monitor.step_ok hc.monitor hstep, ?_, fun i => ?_, ?_⟩
    · rw [(halike .main).1, (halike .main).2]
      exact hc.mainAt
    · rw [(halike (.worker i)).1, (halike (.worker i)).2]
      exact hc.workerAt i
    · rw [hqueue]
      exact hc.length
  | stored hmain hin _ hroom =>
    refine hc.of_mainSection hin (hq.store hroom _) rfl (by rw [hmain]; exact .inr rfl) ?_
    rw [hq.contents_store hroom, List.length_append, List.length_append, hc.length]
    rfl
  | refused hmain hin _ =>
    exact hc.of_mainSection hin hq rfl (by rw [hmain]; exact .inr rfl) hc.length
  | broadcast hmain hin _ =>
    exact hc.of_mainSection hin hq rfl (by rw [hmain]; exact .inr rfl) hc.length
  | looked hmain hin =>
    exact hc.of_mainSection hin hq rfl (by rw [hmain]; exact .inr ⟨rfl, _, rfl⟩) hc.length
  | taken hpc hin _ hsome hqueued =>
    refine hc.of_workerSection _ hin (hq.advance hsome) rfl ⟨rfl, _, rfl⟩ ?_
    have hlength := hc.length
    rw [hqueued, hq.contents_eq_cons hsome, List.length_cons, List.length_cons] at hlength
    exact Nat.succ.inj hlength
  | missed hpc hin _ => exact hstay hin hq rfl (by rw [hpc]; exact .inr ⟨rfl, rfl⟩) hc.length
  | registered hpc hin =>
    exact hstay hin ⟨hq.size_nonneg, hq.size_le, hq.front_mod, hq.rear_eq⟩ rfl
      (by rw [hpc]; exact .inr rfl) hc.length
  | unregistered hpc hin =>
    exact hstay hin ⟨hq.size_nonneg, hq.size_le, hq.front_mod, hq.rear_eq⟩ rfl
      (by rw [hpc]; exact .inr rfl) hc.length
  | accepts hmain hfree => exact hc.of_mainEnter (.inl rfl)
  | breaks hmain => exact hc.of_mainEnter (.inl rfl)
  | stops hmain _ => exact hc.of_mainEnter (.inl rfl)
  | waits hmain _ => exact hc.of_mainGoto (hc.main_call hmain fun _ _ h => h)
  | loops hmain hcall => exact hc.of_mainGoto hcall
  | scans hhead => exact hc.of_mainEnter (.inl rfl)
  | joins hhead =>
    refine hc.of_mainGoto ?_
    rcases hhead with ⟨-, hcall, -⟩ | ⟨j, hmain, -, -⟩
    · exact hcall
    · exact hc.main_call hmain fun _ _ h => h
  | finds hmain hphase _ => exact hc.of_mainGoto (by rw [hphase]; rfl)
  | findsNone hmain hphase => exact hc.of_mainGoto (by rw [hphase]; rfl)
  | shuts hmain => exact hc.of_mainGoto (hc.main_call hmain fun _ _ h => h)
  | closes hmain => exact hc.of_mainGoto (hc.main_call hmain fun _ _ h => h)
  | returns hmain => exact hc.of_mainGoto (hc.main_call hmain fun _ _ h => h)
  | exits hpc hcall _ => exact hc.of_goto hcall
  | pops hpc _ => exact hc.of_workerEnter (.inl rfl)
  | registers hpc hphase _ => exact hc.of_workerEnter (.inl rfl)
  | reads hpc hcall => exact hc.of_goto hcall
  | opensFile hpc _ => exact hc.of_goto (hc.worker_call hpc fun _ _ h => h)
  | closesFile hpc => exact hc.of_goto (hc.worker_call hpc fun _ _ h => h)
  | uses hpc _ => exact hc.of_goto (hc.worker_call hpc fun _ _ h => h)
  | closesConnection hpc => exact hc.of_goto (hc.worker_call hpc fun _ _ h => h)
  | unregisters hpc => exact hc.of_workerEnter (.inl rfl)
  | repeats hpc => exact hc.of_goto (hc.worker_call hpc fun _ _ h => h)
  | resumes hpc hcall => exact hc.of_goto hcall
  | recv hpc => exact hc.of_goto (hc.worker_call hpc fun _ _ h => h)
  | received hpc => exact hc.of_goto (hc.worker_call hpc fun _ _ h => h)

end Consistent

/-- **What a step does to the descriptors**: it leaves the table alone, gives out a number
that is not open, or closes one. -/
inductive Effect (s s' : State n) : Label n → Prop where
  | keeps {l : Label n} (htable : s'.table = s.table) (haccepted : s'.accepted = s.accepted)
      (haccesses : ∃ as, s'.accesses = s.accesses ++ as) : Effect s s' l
  | opens {f i : ℕ} {l : Label n} (hfree : (s.table f).isOpen = false)
      (htable : s'.table = Function.update s.table f (.opened (.file i)))
      (haccepted : s'.accepted = s.accepted) (haccesses : s'.accesses = s.accesses) :
      Effect s s' l
  | accepts {fd : ℕ} (hfree : (s.table fd).isOpen = false)
      (htable : s'.table = Function.update s.table fd (.opened (.connection s.accepted)))
      (haccepted : s'.accepted = s.accepted + 1) (haccesses : s'.accesses = s.accesses) :
      Effect s s' (.accept fd)
  | closes {fd : ℕ} {t : Thread n} {serving : Option ℕ} {l : Label n}
      (htable : s'.table = Function.update s.table fd (s.table fd).close)
      (haccepted : s'.accepted = s.accepted)
      (haccesses : ∃ as, s'.accesses = s.accesses ++ as ++ [⟨t, serving, .close, s.table fd⟩]) :
      Effect s s' l

theorem Move.effect {sc : ServerConf} {sockfd : ℕ} {s s' : State n} {l : Label n}
    (h : Move sc sockfd s l s') : Effect s s' l := by
  cases h with
  | accepts _ hfree => exact .accepts hfree rfl rfl rfl
  | opensFile _ hfree => exact .opens hfree rfl rfl rfl
  | closesFile | closesConnection | closes =>
    exact .closes rfl rfl ⟨[], by rw [List.append_nil]; rfl⟩
  | returns => exact .closes rfl rfl ⟨[_], rfl⟩
  | uses | recv | shuts => exact .keeps rfl rfl ⟨[_], rfl⟩
  | quiet | stored | refused | broadcast | looked | taken | missed | registered | unregistered
  | breaks | stops | waits | loops | scans | joins | finds | findsNone | exits | pops | registers
  | reads | unregisters | repeats | resumes | received =>
    exact .keeps rfl rfl ⟨[], (List.append_nil _).symm⟩

namespace Effect

variable {s s' : State n} {l : Label n}

/-- An open connection was open before, or has just been accepted. -/
theorem opened (h : Effect s s' l) {fd k : ℕ} (hopen : s'.table fd = .opened (.connection k)) :
    s.table fd = .opened (.connection k) ∨ (l = .accept fd ∧ k = s.accepted) := by
  cases h with
  | keeps htable =>
    rw [htable] at hopen
    exact .inl hopen
  | @opens f i _ hfree htable =>
    rw [htable] at hopen
    by_cases hfd : fd = f
    · subst hfd
      exact absurd hopen (by simp)
    · rw [Function.update_of_ne hfd] at hopen
      exact .inl hopen
  | @accepts g hfree htable =>
    rw [htable] at hopen
    by_cases hfd : fd = g
    · subst hfd
      rw [Function.update_self] at hopen
      exact .inr ⟨rfl, (Object.connection.inj (Slot.opened.inj hopen)).symm⟩
    · rw [Function.update_of_ne hfd] at hopen
      exact .inl hopen
  | @closes g _ _ _ htable =>
    rw [htable] at hopen
    by_cases hfd : fd = g
    · subst hfd
      rw [Function.update_self] at hopen
      cases hslot : s.table fd with
      | opened o => exact absurd hopen (by simp [hslot, Slot.close])
      | closed | free => exact absurd hopen (by simp [hslot, Slot.close])
    · rw [Function.update_of_ne hfd] at hopen
      exact .inl hopen

/-- What was closed stays closed. -/
theorem closes_le (h : Effect s s' l) (k : ℕ) : s.closes k ≤ s'.closes k := by
  have happend : ∀ as, s'.accesses = s.accesses ++ as → s.closes k ≤ s'.closes k := by
    intro as has
    rw [State.closes, State.closes, has, List.countP_append]
    exact Nat.le_add_right _ _
  cases h with
  | keeps _ _ haccesses =>
    obtain ⟨as, has⟩ := haccesses
    exact happend as has
  | opens _ _ _ haccesses => exact happend [] (by rw [haccesses, List.append_nil])
  | accepts _ _ _ haccesses => exact happend [] (by rw [haccesses, List.append_nil])
  | closes _ _ haccesses =>
    obtain ⟨as, has⟩ := haccesses
    exact happend _ (by rw [has, List.append_assoc])

/-- A connection that was open is open, or was closed. -/
theorem open_or_closed (h : Effect s s' l) {fd k : ℕ}
    (hopen : s.table fd = .opened (.connection k)) :
    s'.table fd = .opened (.connection k) ∨ 1 ≤ s'.closes k := by
  cases h with
  | keeps htable =>
    rw [htable]
    exact .inl hopen
  | opens hfree htable =>
    rw [htable, Function.update_of_ne (ne_of_isOpen_eq_false hfree hopen)]
    exact .inl hopen
  | accepts hfree htable =>
    rw [htable, Function.update_of_ne (ne_of_isOpen_eq_false hfree hopen)]
    exact .inl hopen
  | @closes g t serving _ htable _ haccesses =>
    by_cases hfd : fd = g
    · subst hfd
      right
      obtain ⟨as, has⟩ := haccesses
      rw [State.closes, has, List.countP_append]
      refine Nat.le_add_left_of_le ?_
      simp [Access.closesConnection, hopen, Slot.object]
    · rw [htable, Function.update_of_ne hfd]
      exact .inl hopen

end Effect

namespace Move

variable {sc : ServerConf} {sockfd : ℕ} {s s' : State n} {l : Label n}

/-- Only the signal sets the flag. -/
theorem sigint_eq (h : Move sc sockfd s l s') :
    s'.monitor.sigint = s.monitor.sigint ∨
      (l = .monitor .sigint ∧ s'.monitor.sigint = true) := by
  cases h with
  | quiet hstep =>
    rcases Monitor.step_cases hstep with ⟨t, c, r, -, -, rfl⟩ | ⟨t, c, -, -, -, rfl⟩ |
      ⟨t, c, on, -, -, -, rfl⟩ | ⟨t, c, woken, q, r, wakes, -, -, -, -, rfl⟩ |
      ⟨t, c, on, -, -, rfl⟩ | ⟨rfl, rfl⟩
    · exact .inl rfl
    · exact .inl rfl
    · exact .inl rfl
    · exact .inl rfl
    · exact .inl rfl
    · exact .inr ⟨rfl, rfl⟩
  | _ => exact .inl rfl

/-- The flag is never reset. -/
theorem sigint_mono (h : Move sc sockfd s l s') (hs : s.monitor.sigint = true) :
    s'.monitor.sigint = true := by
  rcases h.sigint_eq with heq | ⟨-, htrue⟩
  · rw [heq, hs]
  · exact htrue

/-- What a step does to the program points of the workers: at most one of them moves. -/
theorem worker_eq (h : Move sc sockfd s l s') :
    s'.worker = s.worker ∨ ∃ i pc, s'.worker = Function.update s.worker i pc ∧
      s.worker i ≠ .exited ∧ (pc = .exited → s.monitor.sigint = true) ∧
      ∀ k, pc = .popped k → s.monitor.queue.size ≠ 0 := by
  cases h with
  | exits hpc _ hsigint =>
    refine .inr ⟨_, _, rfl, ?_, fun _ => hsigint, by simp⟩
    rcases hpc with hpc | hpc | ⟨k, hpc⟩ <;> simp [hpc]
  | taken hpc _ _ hsome => exact .inr ⟨_, _, rfl, by simp [hpc], by simp, fun _ _ => hsome⟩
  | pops hpc => exact .inr ⟨_, _, rfl, by simp [hpc], by simp, by simp⟩
  | registers hpc => exact .inr ⟨_, _, rfl, by simp [hpc], by simp, by simp⟩
  | reads hpc => exact .inr ⟨_, _, rfl, by simp [hpc], by simp, by simp⟩
  | opensFile hpc => exact .inr ⟨_, _, rfl, by simp [hpc], by simp, by simp⟩
  | closesFile hpc => exact .inr ⟨_, _, rfl, by simp [hpc], by simp, by simp⟩
  | uses hpc => exact .inr ⟨_, _, rfl, by simp [hpc], by simp, by simp⟩
  | closesConnection hpc => exact .inr ⟨_, _, rfl, by simp [hpc], by simp, by simp⟩
  | unregisters hpc => exact .inr ⟨_, _, rfl, by simp [hpc], by simp, by simp⟩
  | repeats hpc => exact .inr ⟨_, _, rfl, by simp [hpc], by simp, by simp⟩
  | resumes hpc => exact .inr ⟨_, _, rfl, by simp [hpc], by simp, by simp⟩
  | recv hpc => exact .inr ⟨_, _, rfl, by simp [hpc], by simp, by simp⟩
  | received hpc => exact .inr ⟨_, _, rfl, by simp [hpc], by simp, by simp⟩
  | _ => exact .inl rfl

/-- A worker that has left its loop has left it for good. -/
theorem exited_mono (h : Move sc sockfd s l s') {i : Fin n} (hi : s.worker i = .exited) :
    s'.worker i = .exited := by
  rcases h.worker_eq with hsame | ⟨j, pc, hupd, hj, -, -⟩
  · rw [hsame, hi]
  · have hne : i ≠ j := by
      rintro rfl
      exact hj hi
    rw [hupd, Function.update_of_ne hne, hi]

/-- A worker leaves its loop only once the flag is set. -/
theorem exited_cases (h : Move sc sockfd s l s') {i : Fin n} (hi : s'.worker i = .exited) :
    s.worker i = .exited ∨ s.monitor.sigint = true := by
  rcases h.worker_eq with hsame | ⟨j, pc, hupd, -, hpc, -⟩
  · exact .inl (by rw [← hsame, hi])
  · by_cases hij : i = j
    · subst hij
      rw [hupd, Function.update_self] at hi
      exact .inr (hpc hi)
    · rw [hupd, Function.update_of_ne hij] at hi
      exact .inl hi

end Move

/-- `main` has joined the worker. -/
def MainPc.joined (j : ℕ) : MainPc n → Bool
  | .scanning i => j < i
  | .shuttingDown i _ => j < i
  | .closing i _ => j < i
  | .joining i => j < i
  | .closingListener => true
  | .done => true
  | _ => false

/-- What `main` knows of the workers behind it: they have left their loops, and so the
flag is set. -/
structure Joined (s : State n) : Prop where
  exited : ∀ i : Fin n, s.main.joined i = true → s.worker i = .exited
  sigint : ∀ i, s.worker i = .exited → s.monitor.sigint = true

/-- What `main` has joined it had joined before, or is the worker it waited for. -/
theorem Move.joined_cases {sc : ServerConf} {sockfd : ℕ} {s s' : State n} {l : Label n}
    (h : Move sc sockfd s l s') {j : Fin n} (hj : s'.main.joined j = true) :
    s.main.joined j = true ∨ s.worker j = .exited := by
  have hhead : ∀ i : ℕ, s.AtHead i → j.val < i → s.main.joined j = true ∨ s.worker j = .exited := by
    rintro i (⟨-, -, rfl⟩ | ⟨j', hmain, hexit, rfl⟩) hlt
    · exact absurd hlt (Nat.not_lt_zero _)
    · by_cases heq : j = j'
      · exact .inr (heq ▸ hexit)
      · left
        rw [hmain]
        have hne : j.val ≠ j' := fun h => heq (Fin.ext h)
        simp only [MainPc.joined, decide_eq_true_eq]
        omega
  cases h with
  | scans hs => exact hhead _ hs (by simpa [MainPc.joined] using hj)
  | joins hs => exact hhead _ hs j.isLt
  | accepts | breaks | stops | waits | loops => exact absurd hj (by simp [MainPc.joined])
  | finds hmain | findsNone hmain | shuts hmain | closes hmain =>
    left
    rw [hmain]
    exact hj
  | returns hmain =>
    left
    rw [hmain]
    rfl
  | _ => exact .inl hj

theorem Joined.of_move {sc : ServerConf} {sockfd : ℕ} {s s' : State n} {l : Label n}
    (hs : Joined s) (h : Move sc sockfd s l s') : Joined s' := by
  refine ⟨fun j hj => ?_, fun i hi => ?_⟩
  · rcases h.joined_cases hj with hold | hexit
    · exact h.exited_mono (hs.exited j hold)
    · exact h.exited_mono hexit
  · rcases h.exited_cases hi with hold | hsigint
    · exact h.sigint_mono (hs.sigint i hold)
    · exact h.sigint_mono hsigint

theorem joined_initial (queueMax sockfd : ℕ) (base : List ℕ) (requests : Fin n → HttpRequest) :
    Joined (State.initial queueMax sockfd base requests) :=
  ⟨fun _ hi => absurd hi (by simp [State.initial, MainPc.joined]),
    fun _ hi => absurd hi (by simp [State.initial])⟩

theorem consistent_initial (queueMax sockfd : ℕ) (base : List ℕ)
    (requests : Fin n → HttpRequest) :
    Consistent queueMax (State.initial queueMax sockfd base requests) :=
  ⟨Monitor.ok_initial queueMax, rfl, fun _ => rfl, rfl⟩

end Pool
end BareHttp
