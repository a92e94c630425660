import BareHttp.Pool.Custody
import BareHttp.Queue.Wakeup

/-!
# The table of active descriptors

A worker writes the descriptor it is going to serve into `active_fds` and clears the
entry when it is done, and `main` reads the entries at shutdown to wake workers that
wait in `recv`.  An entry that is not zero should be the number of the open connection
its worker serves.

It is in a run exactly when no thread closes a number that stands in the table and no
worker registers a descriptor that is closed by then (`active_iff`).  A worker that gives
up in its body loop or whose request could not be processed closes before it
unregisters, `tcp_send` closes on `EPIPE`, and `main` closes what it has read from the
table.
-/

namespace BareHttp
namespace Pool

open Transition

variable {n : ℕ}

/-! ## The entries -/

/-- What the table has for a worker: its descriptor, from the return of
`queue_add_active_fd` to that of `queue_del_active_fd`. -/
def WorkerPc.entry (call : Option QueueCall) : WorkerPc → ℕ
  | .registering _ fd => if call = none then fd else 0
  | .reading _ fd => fd
  | .acting _ fd cs => if .unregister ∈ cs then fd else 0
  | .unregistering _ fd _ => if call = none then 0 else fd
  | _ => 0

/-- The worker unregisters at most once more. -/
def WorkerPc.UnregistersOnce : WorkerPc → Prop
  | .acting _ _ cs => cs.count .unregister ≤ 1
  | .unregistering _ _ cs => .unregister ∉ cs
  | _ => True

/-- The table is what the program points say. -/
structure Registration (s : State n) : Prop where
  entry : ∀ i : Fin n, s.monitor.queue.activeFds i =
    (s.worker i).entry (s.monitor.phase (.worker i)).call
  once : ∀ i, (s.worker i).UnregistersOnce

theorem unregister_notMem_calls (e : Event) : SysCall.unregister ∉ calls e := by
  cases e with
  | openat2 p fd => cases fd <;> simp [calls]
  | close | send | sendfile | shutdown | pipe | fork | write | read | waitpid => simp [calls]

/-- An iteration unregisters once. -/
theorem count_unregister_program (sc : ServerConf) (st : Worker.State) (c : Worker.Connection) :
    (program sc st c).count .unregister = 1 := by
  have htrace : ∀ es : List Event, (es.flatMap calls).count .unregister = 0 := by
    intro es
    rw [List.count_eq_zero, List.mem_flatMap]
    rintro ⟨e, -, he⟩
    exact unregister_notMem_calls e he
  rw [program, List.count_append, htrace, Nat.zero_add]
  unfold ending
  split <;> decide

theorem unregister_mem_program (sc : ServerConf) (st : Worker.State) (c : Worker.Connection) :
    SysCall.unregister ∈ program sc st c := by
  rw [← List.count_pos_iff, count_unregister_program]
  exact Nat.zero_lt_one

namespace Registration

variable {sc : ServerConf} {queueMax sockfd : ℕ} {s s' : State n} {l : Label n}

/-- A step of one worker. -/
theorem of_worker (h : Registration s) (i : Fin n) (pc : WorkerPc)
    (hactive : ∀ j : Fin n, j ≠ i →
      s'.monitor.queue.activeFds j = s.monitor.queue.activeFds j)
    (hworker : s'.worker = Function.update s.worker i pc)
    (halike : ∀ u, u ≠ .worker i → (s.monitor.phase u).Alike (s'.monitor.phase u))
    (hentry : s'.monitor.queue.activeFds i = pc.entry (s'.monitor.phase (.worker i)).call)
    (honce : pc.UnregistersOnce) : Registration s' := by
  constructor
  · intro j
    rw [hworker]
    by_cases hj : j = i
    · subst hj
      rw [Function.update_self]
      exact hentry
    · rw [Function.update_of_ne hj, hactive j hj, (halike (.worker j) (by simpa using hj)).1]
      exact h.entry j
  · intro j
    rw [hworker]
    by_cases hj : j = i
    · subst hj
      rw [Function.update_self]
      exact honce
    · rw [Function.update_of_ne hj]
      exact h.once j

/-- A step of `main`. -/
theorem of_main (h : Registration s)
    (hactive : s'.monitor.queue.activeFds = s.monitor.queue.activeFds)
    (hworker : s'.worker = s.worker)
    (halike : ∀ u, u ≠ .main → (s.monitor.phase u).Alike (s'.monitor.phase u)) :
    Registration s' := by
  constructor
  · intro i
    rw [hactive, hworker, (halike (.worker i) (by simp)).1]
    exact h.entry i
  · rw [hworker]
    exact h.once

/-- A worker goes on outside the queue and keeps its entry. -/
theorem of_goto (h : Registration s) {i : Fin n} {pc pc' : WorkerPc} {table : ℕ → Slot}
    {accesses : List (Access n)} {memory : Fin n → Worker.State} (hpc : s.worker i = pc)
    (hentry : pc'.entry (s.monitor.phase (.worker i)).call =
      pc.entry (s.monitor.phase (.worker i)).call) (honce : pc'.UnregistersOnce) :
    Registration
      { s with
        table := table
        accesses := accesses
        memory := memory
        worker := Function.update s.worker i pc' } := by
  refine h.of_worker i pc' (fun _ _ => rfl) rfl (fun _ _ => .refl _) ?_ honce
  rw [hentry, ← hpc]
  exact h.entry i

/-- A worker enters a function of the queue. -/
theorem of_enter (h : Registration s) {i : Fin n} {pc pc' : WorkerPc} {c : QueueCall}
    (hpc : s.worker i = pc)
    (hentry : pc'.entry (some c) = pc.entry (s.monitor.phase (.worker i)).call)
    (honce : pc'.UnregistersOnce) :
    Registration { s.goto i pc' with monitor := s.monitor.enter (.worker i) c } := by
  refine h.of_worker i pc' (fun _ _ => rfl) rfl (fun _ hu => Monitor.enter_alike c hu) ?_
    honce
  show s.monitor.queue.activeFds i = pc'.entry ((s.monitor.enter (.worker i) c).phase _).call
  rw [Monitor.enter_phase_self, h.entry i, hpc, ← hentry]
  rfl

/-- A worker returns from a function of the queue. -/
theorem of_section (h : Registration s) {i : Fin n} {q : Queue} {r : Option ℕ}
    {woken : Finset (Thread n)}
    (hactive : ∀ j : Fin n, j ≠ i → q.activeFds j = s.monitor.queue.activeFds j)
    (hentry : q.activeFds i = (s.worker i).entry none) :
    Registration { s with monitor := s.monitor.finish (.worker i) q r woken } := by
  refine h.of_worker i (s.worker i) hactive (Function.update_eq_self i s.worker).symm
    (fun _ hu => Monitor.finish_alike q r woken hu) ?_ (h.once i)
  show q.activeFds i = (s.worker i).entry
    ((s.monitor.finish (.worker i) q r woken).phase (.worker i)).call
  rw [Monitor.finish_phase_self]
  exact hentry

/-- A call that is not `queue_del_active_fd` leaves the entry. -/
theorem of_act (h : Registration s) {i : Fin n} {k fd : ℕ} {c : SysCall} {cs : List SysCall}
    {table : ℕ → Slot} {accesses : List (Access n)} (hpc : s.worker i = .acting k fd (c :: cs))
    (hc : c ≠ .unregister) :
    Registration
      { s with
        table := table
        accesses := accesses
        worker := Function.update s.worker i (.acting k fd cs) } := by
  have honce := h.once i
  rw [hpc] at honce
  show Registration
    { s with
      table := table
      accesses := accesses
      memory := s.memory
      worker := Function.update s.worker i (.acting k fd cs) }
  refine h.of_goto hpc ?_ ?_
  · simp [WorkerPc.entry, hc.symm]
  · show cs.count .unregister ≤ 1
    rwa [WorkerPc.UnregistersOnce, List.count_cons_of_ne hc] at honce

/-- **Every step keeps the table with the program points.** -/
theorem of_move (h : Registration s) (hm : Move sc sockfd s l s') : Registration s' := by
  have hmain : ∀ {r : Option ℕ} {woken : Finset (Thread n)} {q : Queue} {ks : List ℕ},
      q.activeFds = s.monitor.queue.activeFds →
      Registration
        { s with monitor := s.monitor.finish .main q r woken, queued := ks } := by
    intro r woken q ks hactive
    exact h.of_main hactive rfl fun _ hu => Monitor.finish_alike _ _ _ hu
  have honce := h.once
  cases hm with
  | quiet _ hqueue halike => exact h.of_main (by rw [hqueue]) rfl fun u _ => halike u
  | stored | refused | broadcast | looked => exact hmain rfl
  | @taken i k ks woken hpc =>
    refine h.of_worker i (.popped k) (fun _ _ => rfl) rfl
      (fun _ hu => Monitor.finish_alike _ _ _ hu) ?_ trivial
    show s.monitor.queue.activeFds i = 0
    rw [h.entry, hpc]
    rfl
  | missed hpc =>
    refine h.of_section (fun _ _ => rfl) ?_
    rw [h.entry, hpc]
    rfl
  | registered hpc hin =>
    refine h.of_section (fun j hj => Function.update_of_ne (fun hv => hj (Fin.ext hv)) _ _) ?_
    rw [hpc]
    exact Function.update_self _ _ _
  | unregistered hpc hin =>
    refine h.of_section (fun j hj => Function.update_of_ne (fun hv => hj (Fin.ext hv)) _ _) ?_
    rw [hpc]
    exact Function.update_self _ _ _
  | accepts | breaks | stops | scans =>
    exact h.of_main rfl rfl fun _ hu => Monitor.enter_alike _ hu
  | waits | loops | joins | finds | findsNone | shuts | closes | returns =>
    exact h.of_main rfl rfl fun _ _ => .refl _
  | exits hpc =>
    rcases hpc with hpc | hpc | ⟨k, hpc⟩
    · exact h.of_goto hpc rfl trivial
    · exact h.of_goto hpc rfl trivial
    · exact h.of_goto hpc rfl trivial
  | pops hpc => exact h.of_enter hpc rfl trivial
  | registers hpc => exact h.of_enter hpc rfl trivial
  | reads hpc hcall => exact h.of_goto hpc (by simp [WorkerPc.entry, hcall]) trivial
  | opensFile hpc => exact h.of_act hpc (by simp)
  | closesFile hpc => exact h.of_act hpc (by simp)
  | closesConnection hpc => exact h.of_act hpc (by simp)
  | uses hpc huses =>
    refine h.of_act hpc ?_
    rintro rfl
    exact absurd huses (by simp [SysCall.uses])
  | @unregisters i k fd cs hpc =>
    refine h.of_enter hpc (by simp [WorkerPc.entry]) ?_
    have hcount := honce i
    simp only [hpc, WorkerPc.UnregistersOnce, List.count_cons_self] at hcount
    exact List.count_eq_zero.mp (by omega)
  | repeats hpc => exact h.of_goto hpc rfl trivial
  | @resumes i k fd cs hpc hcall =>
    have hnot : SysCall.unregister ∉ cs := by
      have hunreg := honce i
      rwa [hpc] at hunreg
    refine h.of_goto hpc ?_ ?_
    · simp [WorkerPc.entry, hcall, hnot]
    · show cs.count .unregister ≤ 1
      rw [List.count_eq_zero.mpr hnot]
      exact Nat.zero_le 1
  | recv hpc => exact h.of_goto hpc rfl trivial
  | received hpc =>
    refine h.of_goto hpc ?_ (Nat.le_of_eq (count_unregister_program _ _ _))
    simp only [WorkerPc.entry, unregister_mem_program, if_true]

end Registration

theorem registration_initial (queueMax sockfd : ℕ) (base : List ℕ)
    (requests : Fin n → HttpRequest) :
    Registration (State.initial queueMax sockfd base requests) :=
  ⟨fun _ => rfl, fun _ => trivial⟩

/-! ## The entries are of open connections -/

/-- The connection a worker serves, with its number. -/
def WorkerPc.serves : WorkerPc → Option (ℕ × ℕ)
  | .registering k fd => some (k, fd)
  | .reading k fd => some (k, fd)
  | .acting k fd _ => some (k, fd)
  | .unregistering k fd _ => some (k, fd)
  | _ => none

/-- An entry that is not zero is the number of an open descriptor, and of the connection its
worker serves. -/
def Active (s : State n) : Prop :=
  ∀ i : Fin n, s.monitor.queue.activeFds i ≠ 0 → ∃ k,
    (s.worker i).serves = some (k, s.monitor.queue.activeFds i) ∧
      s.table (s.monitor.queue.activeFds i) = .opened (.connection k)

/-- The number stands in the table. -/
def State.Registered (s : State n) (fd : ℕ) : Prop :=
  fd ≠ 0 ∧ ∃ i : Fin n, s.monitor.queue.activeFds i = fd

instance (s : State n) (fd : ℕ) : Decidable (s.Registered fd) :=
  inferInstanceAs (Decidable (fd ≠ 0 ∧ ∃ i : Fin n, s.monitor.queue.activeFds i = fd))

/-- The number the next step of a worker closes. -/
def WorkerPc.closes : WorkerPc → Option ℕ
  | .acting _ fd (.close :: _) => some fd
  | .acting _ _ (.closeFile f :: _) => some f
  | _ => none

/-- A call that uses its descriptor does not close one. -/
theorem WorkerPc.closes_of_uses {c : SysCall} {kind : Kind} (h : c.uses = some kind)
    (k fd : ℕ) (cs : List SysCall) : (WorkerPc.acting k fd (c :: cs)).closes = none := by
  cases c with
  | close | closeFile => exact absurd h (by simp [SysCall.uses])
  | _ => rfl

/-- The number the next step of `main` closes in its scan. -/
def MainPc.closes : MainPc n → Option ℕ
  | .closing _ fd => some fd
  | _ => none

/-- What a worker that enters its descriptor into the table serves. -/
def WorkerPc.enters : WorkerPc → Option (ℕ × ℕ)
  | .registering k fd => some (k, fd)
  | _ => none

/-- The steps that keep the entries right: what is closed is not in the table, and what is
entered into it is the open connection of the worker. -/
def KeepsActive (s : State n) : Label n → Prop
  | .monitor (.critical (.worker i) _) => ∀ x ∈ (s.worker i).enters, x.2 ≠ 0 →
      s.table x.2 = .opened (.connection x.1)
  | .main => ∀ fd ∈ s.main.closes, ¬ s.Registered fd
  | .worker i => ∀ fd ∈ (s.worker i).closes, ¬ s.Registered fd
  | _ => True

instance (s : State n) (l : Label n) : Decidable (KeepsActive s l) :=
  match l with
  | .monitor (.critical (.worker i) _) => inferInstanceAs (Decidable (∀ x ∈ (s.worker i).enters,
      x.2 ≠ 0 → s.table x.2 = .opened (.connection x.1)))
  | .main => inferInstanceAs (Decidable (∀ fd ∈ s.main.closes, ¬ s.Registered fd))
  | .worker i => inferInstanceAs (Decidable (∀ fd ∈ (s.worker i).closes, ¬ s.Registered fd))
  | .monitor (.critical .main _) | .monitor (.call _ _) | .monitor (.lock _)
  | .monitor (.spurious _) | .monitor .sigint | .accept _ | .acceptFails | .recv _
  | .received _ _ => .isTrue trivial

namespace Move

variable {sc : ServerConf} {queueMax sockfd : ℕ} {s s' : State n} {l : Label n}

/-- A worker that has an entry keeps the connection it serves. -/
theorem serves_eq (hr : Registration s) (h : Move sc sockfd s l s') {i : Fin n}
    (hne : s.monitor.queue.activeFds i ≠ 0) : (s'.worker i).serves = (s.worker i).serves := by
  rw [hr.entry] at hne
  -- the worker that moves keeps what it serves, or has no entry
  have hsame : ∀ {j : Fin n} {pc pc' : WorkerPc}, s.worker j = pc → pc'.serves = pc.serves →
      (Function.update s.worker j pc' i).serves = (s.worker i).serves := by
    intro j pc pc' hpc hserves
    by_cases hij : i = j
    · subst hij
      rw [Function.update_self, hpc, hserves]
    · rw [Function.update_of_ne hij]
  have hnone : ∀ {j : Fin n} {pc : WorkerPc} (pc' : WorkerPc), s.worker j = pc →
      pc.entry (s.monitor.phase (.worker j)).call = 0 →
      (Function.update s.worker j pc' i).serves = (s.worker i).serves := by
    intro j pc pc' hpc hzero
    have hij : i ≠ j := by
      rintro rfl
      rw [hpc] at hne
      exact hne hzero
    rw [Function.update_of_ne hij]
  cases h with
  | taken hpc => exact hnone _ hpc rfl
  | exits hpc =>
    rcases hpc with hpc | hpc | ⟨k, hpc⟩
    · exact hnone _ hpc rfl
    · exact hnone _ hpc rfl
    · exact hnone _ hpc rfl
  | pops hpc => exact hnone _ hpc rfl
  | registers hpc => exact hnone _ hpc rfl
  | repeats hpc => exact hnone _ hpc rfl
  | reads hpc => exact hsame hpc rfl
  | opensFile hpc => exact hsame hpc rfl
  | closesFile hpc => exact hsame hpc rfl
  | uses hpc => exact hsame hpc rfl
  | closesConnection hpc => exact hsame hpc rfl
  | unregisters hpc => exact hsame hpc rfl
  | resumes hpc => exact hsame hpc rfl
  | recv hpc => exact hsame hpc rfl
  | received hpc => exact hsame hpc rfl
  | _ => rfl

/-- What a step does to an entry. -/
theorem activeFds_cases (h : Move sc sockfd s l s') (i : Fin n) :
    s'.monitor.queue.activeFds i = s.monitor.queue.activeFds i ∨
      s'.monitor.queue.activeFds i = 0 ∨
      ∃ k fd woken, l = .monitor (.critical (.worker i) woken) ∧
        s.worker i = .registering k fd ∧ s'.worker = s.worker ∧ s'.table = s.table ∧
        s'.monitor.queue.activeFds i = fd := by
  cases h with
  | quiet _ hqueue =>
    rw [hqueue]
    exact .inl rfl
  | @registered j k fd woken hpc =>
    by_cases hij : i = j
    · subst hij
      exact .inr (.inr ⟨k, fd, woken, rfl, hpc, rfl, rfl, Function.update_self _ _ _⟩)
    · exact .inl (Function.update_of_ne (fun hv => hij (Fin.ext hv)) _ _)
  | @unregistered j k fd cs woken hpc =>
    by_cases hij : i = j
    · subst hij
      exact .inr (.inl (Function.update_self _ _ _))
    · exact .inl (Function.update_of_ne (fun hv => hij (Fin.ext hv)) _ _)
  | _ => exact .inl rfl

/-- What a step that keeps the entries right leaves open. -/
theorem table_eq (h : Move sc sockfd s l s') (hr : Registration s) (hj : Joined s)
    (hk : KeepsActive s l) {i : Fin n} {fd k : ℕ} (hfd : s.monitor.queue.activeFds i = fd)
    (hne : fd ≠ 0) (hopen : s.table fd = .opened (.connection k)) :
    s'.table fd = .opened (.connection k) := by
  have hclosed : ∀ {g : ℕ}, ¬ s.Registered g →
      Function.update s.table g (s.table g).close fd = .opened (.connection k) := by
    intro g hg
    have hne' : fd ≠ g := by
      rintro rfl
      exact hg ⟨hne, i, hfd⟩
    rw [Function.update_of_ne hne', hopen]
  cases h with
  | accepts _ hfree =>
    exact (Function.update_of_ne (ne_of_isOpen_eq_false hfree hopen) _ _).trans hopen
  | opensFile _ hfree =>
    exact (Function.update_of_ne (ne_of_isOpen_eq_false hfree hopen) _ _).trans hopen
  | closes hmain => exact hclosed (hk _ (by rw [hmain]; rfl))
  | closesFile hpc => exact hclosed (hk _ (by rw [hpc]; rfl))
  | closesConnection hpc => exact hclosed (hk _ (by rw [hpc]; rfl))
  | returns hmain =>
    have hexited := hj.exited i (by rw [hmain]; rfl)
    rw [hr.entry, hexited] at hfd
    exact absurd hfd.symm hne
  | _ => exact hopen

end Move

/-- **A step that keeps the entries right keeps them right.** -/
theorem Active.of_move {sc : ServerConf} {sockfd : ℕ} {s s' : State n} {l : Label n}
    (ha : Active s) (hr : Registration s) (hj : Joined s) (hk : KeepsActive s l)
    (h : Move sc sockfd s l s') : Active s' := by
  intro i hne
  rcases h.activeFds_cases i with hsame | hzero | ⟨k, fd, woken, rfl, hpc, hworker, htable, hentry⟩
  · rw [hsame] at hne ⊢
    obtain ⟨k, hserves, hopen⟩ := ha i hne
    exact ⟨k, (h.serves_eq hr hne).trans hserves, h.table_eq hr hj hk rfl hne hopen⟩
  · exact absurd hzero hne
  · rw [hentry] at hne ⊢
    refine ⟨k, by rw [hworker, hpc]; rfl, ?_⟩
    rw [htable]
    exact hk (k, fd) (by rw [hpc]; rfl) hne

/-- What was closed is not in the table, if the entries are right behind the step. -/
theorem Active.not_registered {s s' : State n} {fd : ℕ} (ha : Active s')
    (hactive : s'.monitor.queue.activeFds = s.monitor.queue.activeFds)
    (htable : s'.table = Function.update s.table fd (s.table fd).close) :
    ¬ s.Registered fd := by
  rintro ⟨hne, i, hfd⟩
  have hfd' : s'.monitor.queue.activeFds i = fd := by rw [hactive, hfd]
  obtain ⟨k, -, hopen⟩ := ha i (by rw [hfd']; exact hne)
  rw [hfd', htable, Function.update_self] at hopen
  cases hslot : s.table fd <;> simp [hslot, Slot.close] at hopen

/-- The entry of a worker in `queue_add_active_fd` is the connection it serves. -/
theorem Active.opened_of_registering {s : State n} (ha : Active s) {i : Fin n} {k fd : ℕ}
    (hpc : s.worker i = .registering k fd) (hentry : s.monitor.queue.activeFds i = fd)
    (hne : fd ≠ 0) : s.table fd = .opened (.connection k) := by
  obtain ⟨k', hserves, hopen⟩ := ha i fun h => hne (hentry.symm.trans h)
  rw [hentry] at hserves hopen
  rw [hpc] at hserves
  obtain ⟨rfl, -⟩ := Prod.mk.inj (Option.some.inj hserves)
  exact hopen

/-- **A step behind which the entries are right keeps them right.** -/
theorem KeepsActive.of_active {sc : ServerConf} {queueMax sockfd : ℕ} {s s' : State n}
    {l : Label n} (hc : Consistent queueMax s) (h : Move sc sockfd s l s') (ha : Active s') :
    KeepsActive s l := by
  have hmain : ∀ {pc : MainPc n}, s.main = pc → pc.closes = none →
      ∀ fd ∈ s.main.closes, ¬ s.Registered fd := by
    intro pc hpc hnone fd hfd
    exact absurd hfd (by simp [hpc, hnone])
  have hworker : ∀ {i : Fin n} {pc : WorkerPc}, s.worker i = pc → pc.closes = none →
      ∀ fd ∈ (s.worker i).closes, ¬ s.Registered fd := by
    intro i pc hpc hnone fd hfd
    exact absurd hfd (by simp [hpc, hnone])
  cases h with
  | @registered i k fd woken hpc hin =>
    intro x hx hne
    obtain rfl : (k, fd) = x := by simpa [hpc, WorkerPc.enters] using hx
    exact ha.opened_of_registering hpc (Function.update_self _ _ _) hne
  | @quiet l m hstep _ _ hwait =>
    cases l with
    | critical t woken =>
      cases t with
      | main => exact trivial
      | worker i =>
        -- a worker that has to wait is in `queue_pop`
        obtain ⟨c, on, hin, hwait⟩ := hwait _ _ rfl
        have hat := hc.workerAt i
        rw [hin] at hat
        rcases QueueCall.outcome_wait hwait with ⟨fd, rfl, -⟩ | ⟨rfl, -⟩
        · exact absurd rfl (hat.ne_mains_calls.1 fd)
        · intro x hx
          exact absurd hx (by simp [hat.eq_popping, WorkerPc.enters])
    | call | lock | spurious | sigint => exact trivial
  | taken hpc | missed hpc | unregistered hpc =>
    intro x hx
    exact absurd hx (by simp [hpc, WorkerPc.enters])
  | closes hpc =>
    intro fd hfd
    obtain rfl : _ = fd := by simpa [hpc, MainPc.closes] using hfd
    exact ha.not_registered rfl rfl
  | closesFile hpc | closesConnection hpc =>
    intro fd hfd
    obtain rfl : _ = fd := by simpa [hpc, WorkerPc.closes] using hfd
    exact ha.not_registered rfl rfl
  | stops hpc | waits hpc | loops hpc | finds hpc | findsNone hpc | shuts hpc | returns hpc =>
    exact hmain hpc rfl
  | scans hhead | joins hhead =>
    rcases hhead with ⟨hpc, -, -⟩ | ⟨j, hpc, -, -⟩
    · exact hmain hpc rfl
    · exact hmain hpc rfl
  | exits hpc =>
    rcases hpc with hpc | hpc | ⟨k, hpc⟩
    · exact hworker hpc rfl
    · exact hworker hpc rfl
    · exact hworker hpc rfl
  | uses hpc huses => exact hworker hpc (WorkerPc.closes_of_uses huses _ _ _)
  | pops hpc | registers hpc | reads hpc | opensFile hpc | unregisters hpc | repeats hpc
  | resumes hpc => exact hworker hpc rfl
  | stored | refused | broadcast | looked | accepts | breaks | recv | received => exact trivial

/-- What every reachable state has. -/
structure Reached (queueMax : ℕ) (s : State n) : Prop where
  consistent : Consistent queueMax s
  joined : Joined s
  registration : Registration s

theorem Reached.of_step {sc : ServerConf} {queueMax sockfd : ℕ} {s s' : State n} {l : Label n}
    (h : Reached queueMax s) (hs : step sc sockfd s l = some s') : Reached queueMax s' :=
  have hmove := h.consistent.move hs
  ⟨h.consistent.of_move hmove, h.joined.of_move hmove, h.registration.of_move hmove⟩

theorem reached_initial (queueMax sockfd : ℕ) (base : List ℕ) (requests : Fin n → HttpRequest) :
    Reached queueMax (State.initial queueMax sockfd base requests) :=
  ⟨consistent_initial queueMax sockfd base requests, joined_initial queueMax sockfd base requests,
    registration_initial queueMax sockfd base requests⟩

/-- **When the entries are right.**  In every state of a run an entry that is not zero is the
number of an open descriptor and of the connection its worker serves, exactly when no
step of the run closes a number that stands in the table or enters one that is not the
open connection of the worker. -/
theorem active_iff (sc : ServerConf) (queueMax sockfd : ℕ) (base : List ℕ)
    (requests : Fin n → HttpRequest) {ls : List (Label n)} {t : State n}
    (hrun : run (step sc sockfd) (State.initial queueMax sockfd base requests) ls = some t) :
    Throughout (step sc sockfd) Active (State.initial queueMax sockfd base requests) ls ↔
      Along (step sc sockfd) KeepsActive (State.initial queueMax sockfd base requests) ls := by
  have hreached : ∀ (s : State n) l s', Reached queueMax s → step sc sockfd s l = some s' →
      Reached queueMax s' := fun _ _ _ => Reached.of_step
  refine throughout_iff_along_of_invariant hreached ?_ ?_
    (reached_initial queueMax sockfd base requests) (fun i hne => absurd rfl hne) hrun
  · intro s l s' hr ha hk hs
    exact ha.of_move hr.registration hr.joined hk (hr.consistent.move hs)
  · intro s l s' hr _ hk hs ha'
    exact hk (.of_active hr.consistent (hr.consistent.move hs) ha')

end Pool
end BareHttp
