import BareHttp.Pool.ActiveFds

/-!
# Joining the workers

`main` joins a worker right behind the shutdown of the descriptor it has read from the
table.  A worker that waits in `recv` should have been noticed that way: its connection
should be shut down before `main` waits for it.

That fails where the entry does not show the worker.  Between its test of `sigint` and
the store into the table a worker has no entry, and it goes on to read from its client
although `main` has read a zero; a connection under the number `0` has an entry that says
nothing; and where another thread has closed the descriptor, `main` shuts down whatever
has its number now.  In every other run `main` waits for no worker that waits for a client
(`Noticed`).
-/

namespace BareHttp
namespace Pool

open Transition

variable {n : ℕ}

/-- `main` has shut down the connection. -/
def ShutDown (s : State n) (k : ℕ) : Prop :=
  ∃ a ∈ s.accesses, a.thread = .main ∧ a.kind = .shutdown ∧ a.slot = .opened (.connection k)

/-- `main` does not wait for a worker that waits for a client, but on a connection `main`
has shut down. -/
def Released (s : State n) : Prop :=
  ∀ i k fd, s.main = .joining i → s.worker i = .reading k fd → ShutDown s k

/-- `main` has read the entry of worker `i`. -/
def State.hasRead (s : State n) (i : ℕ) : Bool :=
  match s.main with
  | .scanning j => i < j ∨ (i = j ∧ (s.monitor.phase .main).call = none)
  | .shuttingDown j _ => i ≤ j
  | .closing j _ => i ≤ j
  | .joining j => i ≤ j
  | .closingListener => true
  | .done => true
  | _ => false

theorem State.hasRead_eq {s s' : State n} (hmain : s'.main = s.main)
    (halike : (s.monitor.phase .main).Alike (s'.monitor.phase .main)) (i : ℕ) :
    s'.hasRead i = s.hasRead i := by
  simp only [State.hasRead, hmain, halike.1]

/-- The connection whose descriptor the worker is about to close as its own. -/
def WorkerPc.closesOwn : WorkerPc → Option ℕ
  | .acting k _ (.close :: _) => some k
  | _ => none

/-- The connection that the next step of the worker closes. -/
def State.hits (s : State n) (i : Fin n) : Option ℕ :=
  (s.worker i).closes.bind fun fd =>
    match s.table fd with
    | .opened (.connection k) => some k
    | _ => none

/-- The steps that let `main` notice every worker: none registers the number `0`, or any
number once `main` has read its entry, and none closes the connection of another. -/
def Notices (s : State n) : Label n → Prop
  | .monitor (.critical (.worker i) _) => ∀ x ∈ (s.worker i).enters, x.2 ≠ 0 ∧
      s.hasRead i = false
  | .worker i => ∀ k ∈ s.hits i, (s.worker i).closesOwn = some k
  | _ => True

instance (s : State n) (l : Label n) : Decidable (Notices s l) :=
  match l with
  | .monitor (.critical (.worker i) _) => inferInstanceAs (Decidable (∀ x ∈ (s.worker i).enters,
      x.2 ≠ 0 ∧ s.hasRead i = false))
  | .worker i => inferInstanceAs (Decidable (∀ k ∈ s.hits i, (s.worker i).closesOwn = some k))
  | .monitor (.critical .main _) | .monitor (.call _ _) | .monitor (.lock _)
  | .monitor (.spurious _) | .monitor .sigint | .accept _ | .acceptFails | .main | .recv _
  | .received _ _ => .isTrue trivial

/-- The connection of a worker that has not read the request yet. -/
def WorkerPc.unread (result : Option ℕ) : WorkerPc → Option (ℕ × ℕ)
  | .popped k => result.map fun fd => (k, fd)
  | .registering k fd => some (k, fd)
  | .reading k fd => some (k, fd)
  | _ => none

/-- The connection is in the place, and nothing has been read from it. -/
def Unread (s : State n) : Place n → ℕ → ℕ → Prop
  | .thread (.worker i), k, fd =>
    (s.worker i).unread (s.monitor.phase (.worker i)).result = some (k, fd)
  | p, k, fd => Held s p k fd

theorem WorkerPc.holds_of_unread {result : Option ℕ} {pc : WorkerPc} {x : ℕ × ℕ}
    (h : pc.unread result = some x) : pc.holds result = some x := by
  cases pc with
  | popped | registering | reading => exact h
  | top | popping | acting | unregistering | exited => exact absurd h (by simp [WorkerPc.unread])

theorem Unread.held {s : State n} {p : Place n} {k fd : ℕ} (h : Unread s p k fd) :
    Held s p k fd := by
  cases p with
  | queue => exact h
  | thread t =>
    cases t with
    | main => exact h
    | worker i => exact WorkerPc.holds_of_unread h

/-- The worker has read its request. -/
def WorkerPc.answering : WorkerPc → Bool
  | .acting _ _ _ => true
  | .unregistering _ _ _ => true
  | _ => false

theorem WorkerPc.unread_of_holds {result : Option ℕ} {pc : WorkerPc} {x : ℕ × ℕ}
    (h : pc.holds result = some x) (hpc : pc.answering = false) : pc.unread result = some x := by
  cases pc with
  | popped | registering | reading => exact h
  | acting | unregistering => exact absurd hpc (by simp [WorkerPc.answering])
  | top | popping | exited => exact absurd h (by simp [WorkerPc.holds])

namespace Move

variable {sc : ServerConf} {queueMax sockfd : ℕ} {s s' : State n} {l : Label n}

/-- A worker that has read its request is not back at an unread one in one step. -/
theorem unread_of_answering (h : Move sc sockfd s l s') {i : Fin n}
    (hi : (s.worker i).answering = true) (r : Option ℕ) : (s'.worker i).unread r = none := by
  have hold : (s.worker i).unread r = none := by
    cases hpc : s.worker i with
    | acting | unregistering => rfl
    | top | popping | popped | registering | reading | exited =>
      exact absurd hi (by simp [hpc, WorkerPc.answering])
  have hgoto : ∀ {j : Fin n} {pc pc' : WorkerPc}, s.worker j = pc →
      (pc.answering = false ∨ pc'.unread r = none) →
      (Function.update s.worker j pc' i).unread r = none := by
    intro j pc pc' hpc hor
    by_cases hij : i = j
    · subst hij
      rw [Function.update_self]
      rcases hor with hfalse | hnone
      · exact absurd hi (by simp [hpc, hfalse])
      · exact hnone
    · rw [Function.update_of_ne hij]
      exact hold
  cases h with
  | taken hpc => exact hgoto hpc (.inl rfl)
  | exits hpc =>
    rcases hpc with hpc | hpc | ⟨k, hpc⟩
    · exact hgoto hpc (.inl rfl)
    · exact hgoto hpc (.inl rfl)
    · exact hgoto hpc (.inl rfl)
  | pops hpc => exact hgoto hpc (.inl rfl)
  | registers hpc => exact hgoto hpc (.inl rfl)
  | reads hpc => exact hgoto hpc (.inl rfl)
  | recv hpc => exact hgoto hpc (.inl rfl)
  | received hpc => exact hgoto hpc (.inl rfl)
  | opensFile hpc => exact hgoto hpc (.inr rfl)
  | closesFile hpc => exact hgoto hpc (.inr rfl)
  | uses hpc => exact hgoto hpc (.inr rfl)
  | closesConnection hpc => exact hgoto hpc (.inr rfl)
  | unregisters hpc => exact hgoto hpc (.inr rfl)
  | repeats hpc => exact hgoto hpc (.inr rfl)
  | resumes hpc => exact hgoto hpc (.inr rfl)
  | _ => exact hold

/-- An unread connection was unread before, or has just been accepted. -/
theorem unread_cases (hc : Consistent queueMax s) (h : Move sc sockfd s l s') {p : Place n}
    {k fd : ℕ} (hp : Unread s' p k fd) :
    (∃ p', Unread s p' k fd) ∨ (l = .accept fd ∧ k = s.accepted) := by
  -- in the same place
  have hstay : Held s p k fd → ∃ p', Unread s p' k fd := by
    intro hold
    cases p with
    | queue => exact ⟨.queue, hold⟩
    | thread t =>
      cases t with
      | main => exact ⟨.thread .main, hold⟩
      | worker i =>
        refine ⟨.thread (.worker i), WorkerPc.unread_of_holds hold ?_⟩
        by_contra hans
        exact absurd (hp.symm.trans (h.unread_of_answering (by simpa using hans) _)) (by simp)
  cases h.handover hc with
  | stays htr | refused htr | abandoned htr | closed htr =>
    exact .inl (hstay ((htr.new p k fd hp.held).resolve_right (by simp)))
  | accepted htr =>
    rcases htr.new p k fd hp.held with hold | heq
    · exact .inl (hstay hold)
    · obtain ⟨-, rfl, rfl⟩ : Place.thread .main = p ∧ s.accepted = k ∧ _ = fd := by
        simpa using heq
      exact .inr ⟨rfl, rfl⟩
  | stored htr _ _ hold' =>
    rcases htr.new p k fd hp.held with hold | heq
    · exact .inl (hstay hold)
    · obtain ⟨-, rfl, rfl⟩ : Place.queue = p ∧ _ = k ∧ _ = fd := by simpa using heq
      exact .inl ⟨.thread .main, hold'⟩
  | @taken i k' fd' _ htr _ _ hold' =>
    rcases htr.new p k fd hp.held with hold | heq
    · exact .inl (hstay hold)
    · obtain ⟨-, rfl, rfl⟩ : Place.thread (.worker i) = p ∧ k' = k ∧ fd' = fd := by
        simpa using heq
      exact .inl ⟨.queue, hold'⟩

end Move

/-- The worker has registered the connection it is going to read from. -/
def State.Listens (s : State n) (i : Fin n) (k fd : ℕ) : Prop :=
  s.worker i = .reading k fd ∨
    (s.worker i = .registering k fd ∧ (s.monitor.phase (.worker i)).call = none)

namespace State.Listens

variable {s s' : State n} {i j : Fin n} {k fd : ℕ} {pc : WorkerPc}

theorem of_same (hi : s'.Listens i k fd) (hworker : s'.worker i = s.worker i)
    (halike : (s.monitor.phase (.worker i)).Alike (s'.monitor.phase (.worker i))) :
    s.Listens i k fd := by
  rcases hi with hread | ⟨hreg, hcall⟩
  · exact .inl (hworker.symm.trans hread)
  · exact .inr ⟨hworker.symm.trans hreg, halike.1.symm.trans hcall⟩

/-- A worker that moves to a point where it does not listen is another one. -/
theorem of_moved (hi : s'.Listens i k fd) (hworker : s'.worker = Function.update s.worker j pc)
    (halike : ∀ u, u ≠ .worker j → (s.monitor.phase u).Alike (s'.monitor.phase u))
    (hpc : ∀ k fd, pc ≠ .reading k fd ∧ pc ≠ .registering k fd) : s.Listens i k fd := by
  by_cases hij : i = j
  · subst hij
    rcases hi with hread | ⟨hreg, -⟩
    · rw [hworker, Function.update_self] at hread
      exact absurd hread (hpc k fd).1
    · rw [hworker, Function.update_self] at hreg
      exact absurd hreg (hpc k fd).2
  · refine hi.of_same ?_ (halike (.worker i) (by simpa using hij))
    rw [hworker, Function.update_of_ne hij]

/-- So is one that runs a section at such a point. -/
theorem of_section (hi : s'.Listens i k fd) (hj : s.worker j = pc) (hworker : s'.worker = s.worker)
    (halike : ∀ u, u ≠ .worker j → (s.monitor.phase u).Alike (s'.monitor.phase u))
    (hpc : ∀ k fd, pc ≠ .reading k fd ∧ pc ≠ .registering k fd) : s.Listens i k fd := by
  refine hi.of_moved (j := j) ?_ halike hpc
  rw [hworker, ← hj, Function.update_eq_self]

end State.Listens

/-- `main`, which has read the entry of the worker, will shut its connection down or has
done so. -/
def State.Knows (s : State n) (i : Fin n) (k fd : ℕ) : Prop :=
  (s.main = .scanning i ∧ (s.monitor.phase .main).result = some fd) ∨
    s.main = .shuttingDown i fd ∨ ShutDown s k

/-- What a run keeps in which `main` can notice every worker. -/
structure Noticed (s : State n) : Prop where
  nonzero : ∀ i k fd, s.Listens i k fd → fd ≠ 0
  unread : s.main ≠ .done → ∀ p k fd, Unread s p k fd →
    s.table fd = .opened (.connection k) ∨ ShutDown s k
  closing : ∀ i fd k, s.main = .closing i fd → s.table fd = .opened (.connection k) →
    ShutDown s k
  known : ∀ i k fd, s.Listens i k fd → s.hasRead i = true → s.Knows i k fd

theorem ShutDown.of_effect {s s' : State n} {l : Label n} {k : ℕ} (hs : ShutDown s k)
    (h : Effect s s' l) : ShutDown s' k := by
  obtain ⟨a, ha, hprops⟩ := hs
  refine ⟨a, ?_, hprops⟩
  cases h with
  | keeps _ _ haccesses =>
    obtain ⟨as, has⟩ := haccesses
    rw [has]
    exact List.mem_append_left _ ha
  | opens _ _ _ haccesses => rwa [haccesses]
  | accepts _ _ _ haccesses => rwa [haccesses]
  | closes _ _ haccesses =>
    obtain ⟨as, has⟩ := haccesses
    rw [has]
    exact List.mem_append_left _ (List.mem_append_left _ ha)

namespace Move

variable {sc : ServerConf} {queueMax sockfd : ℕ} {s s' : State n} {l : Label n}

/-- `main` does nothing behind its last step. -/
theorem done_mono (h : Move sc sockfd s l s') (hs : s.main = .done) : s'.main = .done := by
  cases h with
  | accepts hmain | breaks hmain | stops hmain | waits hmain | loops hmain | finds hmain
  | findsNone hmain | shuts hmain | closes hmain | returns hmain =>
    exact absurd (hs.symm.trans hmain) (by simp)
  | scans hhead | joins hhead =>
    rcases hhead with ⟨hmain, -, -⟩ | ⟨j, hmain, -, -⟩
    · exact absurd (hs.symm.trans hmain) (by simp)
    · exact absurd (hs.symm.trans hmain) (by simp)
  | _ => exact hs

/-- An entry that `main` has read it had read before, or reads in this step. -/
theorem hasRead_cases (h : Move sc sockfd s l s') {i : Fin n} (hread : s'.hasRead i = true) :
    s.hasRead i = true ∨ (s'.main = .scanning i ∧
      (s'.monitor.phase .main).result = some (s.monitor.queue.activeFds i)) := by
  have hstay : s'.main = s.main →
      (s.monitor.phase .main).Alike (s'.monitor.phase .main) → s.hasRead i = true :=
    fun hmain halike => (State.hasRead_eq hmain halike i).symm.trans hread
  cases h with
  | quiet _ _ halike => exact .inl (hstay rfl (halike _))
  | @looked j woken hmain hin =>
    by_cases hlt : i.val < j
    · exact .inl (by simp [State.hasRead, hmain, hlt])
    · simp only [State.hasRead, hmain, decide_eq_true_eq] at hread
      obtain rfl : i = j := Fin.ext (hread.resolve_left hlt).1
      refine .inr ⟨hmain, ?_⟩
      rw [Monitor.finish_phase_self]
      rfl
  | stored hmain | refused hmain | broadcast hmain =>
    exact absurd hread (by simp [State.hasRead, hmain])
  | accepts | breaks | stops | waits | loops => exact absurd hread (by simp [State.hasRead])
  | @scans j hhead =>
    have hlt : i.val < j := by
      simpa [State.hasRead, Monitor.enter_phase_self, Monitor.Phase.call] using hread
    rcases hhead with ⟨-, -, hzero⟩ | ⟨j', hmain, -, hsucc⟩
    · omega
    · exact .inl (by simp [State.hasRead, hmain]; omega)
  | joins hhead =>
    rcases hhead with ⟨-, -, hzero⟩ | ⟨j', hmain, -, hsucc⟩
    · exact absurd i.isLt (by omega)
    · exact .inl (by simp [State.hasRead, hmain]; omega)
  | finds hmain hphase | findsNone hmain hphase =>
    refine .inl ?_
    simp only [State.hasRead, decide_eq_true_eq] at hread
    simp only [State.hasRead, hmain, hphase, Monitor.Phase.call, and_true, decide_eq_true_eq]
    omega
  | shuts hmain | closes hmain =>
    exact .inl (by simpa [State.hasRead, hmain] using hread)
  | returns hmain => exact .inl (by simp [State.hasRead, hmain])
  | taken | missed | registered | unregistered =>
    exact .inl (hstay rfl (Monitor.finish_alike _ _ _ (by simp)))
  | pops | registers | unregisters => exact .inl (hstay rfl (Monitor.enter_alike _ (by simp)))
  | exits | reads | opensFile | closesFile | uses | closesConnection | repeats | resumes | recv
  | received => exact .inl (hstay rfl (.refl _))

/-- A worker that listens did so before, or has just registered. -/
theorem listens_cases (h : Move sc sockfd s l s') {i : Fin n} {k fd : ℕ}
    (hi : s'.Listens i k fd) :
    s.Listens i k fd ∨ (s.worker i = .registering k fd ∧
      (∃ woken, l = .monitor (.critical (.worker i) woken)) ∧ s'.hasRead i = s.hasRead i) := by
  cases h with
  | quiet _ _ halike => exact .inl (hi.of_same rfl (halike _))
  | stored | refused | broadcast | looked =>
    exact .inl (hi.of_same rfl (Monitor.finish_alike _ _ _ (by simp)))
  | taken => exact .inl (hi.of_moved rfl (fun _ hu => Monitor.finish_alike _ _ _ hu) (by simp))
  | missed hpc =>
    exact .inl (hi.of_section hpc rfl (fun _ hu => Monitor.finish_alike _ _ _ hu) (by simp))
  | unregistered hpc =>
    exact .inl (hi.of_section hpc rfl (fun _ hu => Monitor.finish_alike _ _ _ hu) (by simp))
  | @registered j k' fd' woken hpc =>
    by_cases hij : i = j
    · subst hij
      rcases hi with hread | ⟨hreg, -⟩
      · exact absurd (hpc.symm.trans hread) (by simp)
      · refine .inr ⟨hreg, ⟨woken, rfl⟩, ?_⟩
        apply State.hasRead_eq
        · rfl
        · exact Monitor.finish_alike _ _ _ (by simp)
    · exact .inl (hi.of_same rfl (Monitor.finish_alike _ _ _ (by simpa using hij)))
  | accepts | breaks | stops | scans =>
    exact .inl (hi.of_same rfl (Monitor.enter_alike _ (by simp)))
  | waits | loops | joins | finds | findsNone | shuts | closes | returns =>
    exact .inl (hi.of_same rfl (.refl _))
  | exits | opensFile | closesFile | uses | closesConnection | repeats | resumes | received =>
    exact .inl (hi.of_moved rfl (fun _ _ => .refl _) (by simp))
  | pops | unregisters =>
    exact .inl (hi.of_moved rfl (fun _ hu => Monitor.enter_alike _ hu) (by simp))
  | @registers j k' fd' hpc hphase =>
    left
    by_cases hij : i = j
    · subst hij
      rcases hi with hread | ⟨-, hcall⟩
      · exact absurd ((Function.update_self _ _ _).symm.trans hread) (by simp)
      · rw [Monitor.enter_phase_self] at hcall
        exact absurd hcall (by simp [Monitor.Phase.call])
    · exact hi.of_same (Function.update_of_ne hij _ _) (Monitor.enter_alike _ (by simpa using hij))
  | @reads j k' fd' hpc hcall =>
    left
    by_cases hij : i = j
    · subst hij
      rcases hi with hread | ⟨hreg, -⟩
      · have heq := (Function.update_self _ _ _).symm.trans hread
        obtain ⟨rfl, rfl⟩ := WorkerPc.reading.inj heq
        exact .inr ⟨hpc, hcall⟩
      · exact absurd ((Function.update_self _ _ _).symm.trans hreg) (by simp)
    · exact hi.of_same (Function.update_of_ne hij _ _) (.refl _)
  | @recv j k' fd' hpc =>
    left
    refine hi.of_same ?_ (.refl _)
    show Function.update s.worker j (.reading k' fd') i = s.worker i
    rw [← hpc, Function.update_eq_self]

end Move

theorem Registration.of_listens {s : State n} (hr : Registration s) {i : Fin n} {k fd : ℕ}
    (h : s.Listens i k fd) : s.monitor.queue.activeFds i = fd := by
  rw [hr.entry]
  rcases h with hpc | ⟨hpc, hcall⟩
  · rw [hpc]
    rfl
  · rw [hpc, hcall]
    rfl

theorem State.Listens.unread {s : State n} {i : Fin n} {k fd : ℕ} (h : s.Listens i k fd) :
    Unread s (.thread (.worker i)) k fd := by
  rcases h with hpc | ⟨hpc, -⟩
  · simp [Unread, hpc, WorkerPc.unread]
  · simp [Unread, hpc, WorkerPc.unread]

namespace Noticed

variable {sc : ServerConf} {queueMax sockfd : ℕ} {place : ℕ → Place n} {s s' : State n}
  {l : Label n}

theorem nonzero_move (hn : Noticed s) (hl : Notices s l) (h : Move sc sockfd s l s') :
    ∀ i k fd, s'.Listens i k fd → fd ≠ 0 := by
  intro i k fd hi
  rcases h.listens_cases hi with hold | ⟨hpc, ⟨woken, rfl⟩, -⟩
  · exact hn.nonzero i k fd hold
  · exact (hl (k, fd) (by rw [hpc]; rfl)).1

/-- **An unread connection stays open until `main` shuts it down.** -/
theorem unread_move (hn : Noticed s) (hc : Consistent queueMax s) (hp : Placed place s)
    (hl : Notices s l) (h : Move sc sockfd s l s') (hdone : s'.main ≠ .done) {p : Place n}
    {k fd : ℕ} (hunread : Unread s' p k fd) :
    s'.table fd = .opened (.connection k) ∨ ShutDown s' k := by
  rcases h.unread_cases hc hunread with ⟨p', hold⟩ | ⟨rfl, rfl⟩
  · have hdone' : s.main ≠ .done := fun hd => hdone (h.done_mono hd)
    have heffect := h.effect
    rcases hn.unread hdone' p' k fd hold with hopen | hshut
    · -- what closes the number would be the worker that has the connection, or `main`
      have hclosed : ∀ {g : ℕ}, g ≠ fd →
          Function.update s.table g (s.table g).close fd = .opened (.connection k) := by
        intro g hg
        rw [Function.update_of_ne hg.symm, hopen]
      cases h with
      | accepts _ hfree =>
        exact .inl ((Function.update_of_ne (ne_of_isOpen_eq_false hfree hopen) _ _).trans hopen)
      | opensFile _ hfree =>
        exact .inl ((Function.update_of_ne (ne_of_isOpen_eq_false hfree hopen) _ _).trans hopen)
      | returns hmain => exact absurd rfl hdone
      | @closes i g hmain =>
        by_cases hg : g = fd
        · subst hg
          exact .inr ((hn.closing i g k hmain hopen).of_effect heffect)
        · exact .inl (hclosed hg)
      | @closesFile i k' fd' f cs hpc =>
        by_cases hf : f = fd
        · subst hf
          have hown := hl k (by simp [State.hits, hpc, WorkerPc.closes, hopen])
          exact absurd hown (by simp [hpc, WorkerPc.closesOwn])
        · exact .inl (hclosed hf)
      | @closesConnection i k' fd' cs hpc =>
        by_cases hfd : fd' = fd
        · subst hfd
          have hown := hl k (by simp [State.hits, hpc, WorkerPc.closes, hopen])
          obtain rfl : k' = k := by simpa [hpc, WorkerPc.closesOwn] using hown
          have hheld : Held s (.thread (.worker i)) k' fd' := by
            simp [Held, hpc, WorkerPc.holds]
          obtain rfl : p' = .thread (.worker i) :=
            (hp.held _ _ _ hold.held).symm.trans (hp.held _ _ _ hheld)
          exact absurd hold (by simp [Unread, hpc, WorkerPc.unread])
        · exact .inl (hclosed hfd)
      | _ => exact .inl hopen
    · exact .inr (hshut.of_effect heffect)
  · cases h with
    | accepts => exact .inl (Function.update_self _ _ _)

/-- What `main` is about to close it has shut down. -/
theorem closing_move (hn : Noticed s) (h : Move sc sockfd s l s') {i : Fin n} {fd k : ℕ}
    (hmain : s'.main = .closing i fd) (hopen : s'.table fd = .opened (.connection k)) :
    ShutDown s' k := by
  have hstay : s.main = .closing i fd → ShutDown s' k := by
    intro hold
    rcases h.effect.opened hopen with hopen' | ⟨rfl, -⟩
    · exact (hn.closing i fd k hold hopen').of_effect h.effect
    · cases h with
      | accepts hacc => exact absurd (hold.symm.trans hacc) (by simp)
  cases h with
  | @shuts j g hshut =>
    obtain ⟨rfl, rfl⟩ := MainPc.closing.inj hmain
    exact ⟨⟨.main, none, .shutdown, s.table g⟩, List.mem_append_right _ List.mem_cons_self, rfl,
      rfl, hopen⟩
  | accepts | breaks | stops | waits | loops | scans | joins | finds | findsNone | closes
  | returns => exact absurd hmain (by simp)
  | _ => exact hstay hmain

/-- What `main` knows it goes on to know. -/
theorem knows_move (hn : Noticed s) (h : Move sc sockfd s l s') {i : Fin n} {k fd : ℕ}
    (hi : s.Listens i k fd) (hk : s.Knows i k fd) : s'.Knows i k fd := by
  have heffect := h.effect
  rcases hk with ⟨hmain, hresult⟩ | hmain | hshut
  · have hstay : s'.main = s.main →
        (s.monitor.phase .main).Alike (s'.monitor.phase .main) → s'.Knows i k fd :=
      fun hsame halike => .inl ⟨hsame.trans hmain, halike.2.trans hresult⟩
    cases h with
    | quiet _ _ halike => exact hstay rfl (halike _)
    | looked _ hin =>
      rw [hin] at hresult
      exact absurd hresult (by simp [Monitor.Phase.result])
    | @finds j g hscan hphase =>
      rw [hphase] at hresult
      obtain rfl : j = i := MainPc.scanning.inj (hscan.symm.trans hmain)
      obtain rfl : g = fd := Option.some.inj hresult
      exact .inr (.inl rfl)
    | findsNone hscan hphase =>
      rw [hphase] at hresult
      exact absurd (Option.some.inj hresult).symm (hn.nonzero i k fd hi)
    | stored hpc | refused hpc | broadcast hpc | accepts hpc | breaks hpc | stops hpc | waits hpc
    | loops hpc | shuts hpc | closes hpc | returns hpc =>
      exact absurd (hmain.symm.trans hpc) (by simp)
    | scans hhead | joins hhead =>
      rcases hhead with ⟨hpc, -, -⟩ | ⟨j, hpc, -, -⟩
      · exact absurd (hmain.symm.trans hpc) (by simp)
      · exact absurd (hmain.symm.trans hpc) (by simp)
    | taken | missed | registered | unregistered =>
      exact hstay rfl (Monitor.finish_alike _ _ _ (by simp))
    | pops | registers | unregisters => exact hstay rfl (Monitor.enter_alike _ (by simp))
    | exits | reads | opensFile | closesFile | uses | closesConnection | repeats | resumes | recv
    | received => exact hstay rfl (.refl _)
  · cases h with
    | @shuts j g hpc =>
      obtain ⟨rfl, rfl⟩ := MainPc.shuttingDown.inj (hpc.symm.trans hmain)
      rcases hn.unread (by simp [hpc]) _ k g hi.unread with hopen | hshut
      · exact .inr (.inr ⟨⟨.main, none, .shutdown, s.table g⟩,
          List.mem_append_right _ List.mem_cons_self, rfl, rfl, hopen⟩)
      · exact .inr (.inr (hshut.of_effect heffect))
    | stored hpc | refused hpc | broadcast hpc | looked hpc | accepts hpc | breaks hpc | stops hpc
    | waits hpc | loops hpc | finds hpc | findsNone hpc | closes hpc | returns hpc =>
      exact absurd (hmain.symm.trans hpc) (by simp)
    | scans hhead | joins hhead =>
      rcases hhead with ⟨hpc, -, -⟩ | ⟨j, hpc, -, -⟩
      · exact absurd (hmain.symm.trans hpc) (by simp)
      · exact absurd (hmain.symm.trans hpc) (by simp)
    | _ => exact .inr (.inl hmain)
  · exact .inr (.inr (hshut.of_effect heffect))

/-- **What `main` has read it knows.** -/
theorem known_move (hn : Noticed s) (hr : Registration s) (hl : Notices s l)
    (h : Move sc sockfd s l s') {i : Fin n} {k fd : ℕ} (hi : s'.Listens i k fd)
    (hread : s'.hasRead i = true) : s'.Knows i k fd := by
  rcases h.listens_cases hi with hold | ⟨hpc, ⟨woken, rfl⟩, heq⟩
  · rcases h.hasRead_cases hread with hbefore | ⟨hmain, hresult⟩
    · exact hn.knows_move h hold (hn.known i k fd hold hbefore)
    · rw [hr.of_listens hold] at hresult
      exact .inl ⟨hmain, hresult⟩
  · have hnot := (hl (k, fd) (by rw [hpc]; rfl)).2
    exact absurd (heq.symm.trans hread) (by simp [hnot])

/-- **A step in which `main` can notice every worker.** -/
theorem of_move (hn : Noticed s) (hr : Reached queueMax s) (hp : Placed place s)
    (hl : Notices s l) (h : Move sc sockfd s l s') : Noticed s' where
  nonzero := hn.nonzero_move hl h
  unread hdone _ _ _ hunread := hn.unread_move hr.consistent hp hl h hdone hunread
  closing _ _ _ hmain hopen := hn.closing_move h hmain hopen
  known _ _ _ hi hread := hn.known_move hr.registration hl h hi hread

/-- `main` waits for no worker that waits for a client. -/
theorem released (hn : Noticed s) : Released s := by
  intro i k fd hmain hpc
  have hknows := hn.known i k fd (.inl hpc) (by simp [State.hasRead, hmain])
  rcases hknows with ⟨hscan, -⟩ | hshut | hshut
  · exact absurd (hmain.symm.trans hscan) (by simp)
  · exact absurd (hmain.symm.trans hshut) (by simp)
  · exact hshut

end Noticed

theorem placed_initial (queueMax sockfd : ℕ) (base : List ℕ) (requests : Fin n → HttpRequest) :
    Placed (fun _ => .thread .main) (State.initial queueMax sockfd base requests) := by
  have hnone : ∀ p k fd, ¬ Held (State.initial queueMax sockfd base requests) p k fd := by
    rintro (_ | _ | i) k fd hp
    · exact absurd hp (by simp [Held, State.initial])
    · exact absurd hp.1 (by simp [State.initial])
    · exact absurd hp (by simp [Held, State.initial, WorkerPc.holds])
  exact ⟨fun p k fd hp => absurd hp (hnone p k fd), List.nodup_nil, fun _ _ => rfl,
    fun p k fd hp => absurd hp (hnone p k fd)⟩

theorem noticed_initial (queueMax sockfd : ℕ) (base : List ℕ) (requests : Fin n → HttpRequest) :
    Noticed (State.initial queueMax sockfd base requests) := by
  have hnone : ∀ i k fd, ¬ (State.initial queueMax sockfd base requests).Listens i k fd := by
    rintro i k fd (hpc | ⟨hpc, -⟩)
    · exact absurd hpc (by simp [State.initial])
    · exact absurd hpc (by simp [State.initial])
  exact ⟨fun i k fd hi => absurd hi (hnone i k fd),
    fun _ p k fd hp => absurd ((placed_initial queueMax sockfd base requests).known p k fd hp.held)
      (Nat.not_lt_zero k),
    fun i fd k hmain => absurd hmain (by simp [State.initial]),
    fun i k fd hi => absurd hi (hnone i k fd)⟩

/-- **What the table of active descriptors is good for.**  In every state of a run of `main`
and any number of workers, an entry that is not zero is the number of an open descriptor
and of the connection its worker serves, exactly when no step closes a number that stands
in the table or enters one that is not the open connection of the worker.  And `main`
never waits for a worker that waits for a client on a connection `main` has not shut
down, if no worker registers the number `0`, or any number once `main` has read its
entry, and none closes the connection of another. -/
theorem activeFds_protect (sc : ServerConf) (queueMax sockfd : ℕ) (base : List ℕ)
    (requests : Fin n → HttpRequest) {ls : List (Label n)} {t : State n}
    (hrun : run (step sc sockfd) (State.initial queueMax sockfd base requests) ls = some t) :
    (Throughout (step sc sockfd) Active (State.initial queueMax sockfd base requests) ls ↔
      Along (step sc sockfd) KeepsActive (State.initial queueMax sockfd base requests) ls) ∧
    (Along (step sc sockfd) Notices (State.initial queueMax sockfd base requests) ls →
      Throughout (step sc sockfd) Released (State.initial queueMax sockfd base requests) ls) := by
  refine ⟨active_iff sc queueMax sockfd base requests hrun, fun hal ms ns u hsplit hu => ?_⟩
  subst hsplit
  have hstep : ∀ (s : State n) l s',
      Reached queueMax s ∧ (∃ place, Placed place s) ∧ Noticed s → Notices s l →
      step sc sockfd s l = some s' →
      Reached queueMax s' ∧ (∃ place, Placed place s') ∧ Noticed s' := by
    rintro s l s' ⟨hr, ⟨place, hp⟩, hn⟩ hl hs
    have hmove := hr.consistent.move hs
    exact ⟨hr.of_step hs, hp.of_move hr.consistent hmove, hn.of_move hr hp hl hmove⟩
  obtain ⟨-, -, hn⟩ := run_invariant_along hstep
    ⟨reached_initial queueMax sockfd base requests,
      ⟨_, placed_initial queueMax sockfd base requests⟩,
      noticed_initial queueMax sockfd base requests⟩ hal.of_append hu
  exact hn.released

/-- A client that sends nothing and whose connection is shut down. -/
def silentConnection : Worker.Connection :=
  { Worker.optionsConnection with pieces := [], nonempty := by simp }

/-- `SIGINT` arrives while the worker waits for its client, and `main` reads its entry and
shuts the connection down. -/
def signalWhileReading : List (Label 1) :=
  clientHanded ++ [.monitor .sigint, .main, .monitor (.lock .main), .monitor (.critical .main ∅),
    .main, .monitor (.lock .main), .monitor (.critical .main ∅), .main, .main]

/-- The worker unregisters before `main` closes the descriptor. -/
def workerReleased : List (Label 1) :=
  signalWhileReading ++ [.received 0 silentConnection, .worker 0, .monitor (.lock (.worker 0)),
    .monitor (.critical (.worker 0) ∅), .worker 0, .main]

theorem workerReleased_protected :
    ∃ s, run (step sampleConf 4) oneWorker workerReleased = some s ∧ s.main = .joining 0 ∧
      Throughout (step sampleConf 4) Active oneWorker workerReleased ∧
      Throughout (step sampleConf 4) Released oneWorker workerReleased := by
  have hkeeps : Along (step sampleConf 4) KeepsActive oneWorker workerReleased := by
    decide +kernel
  have hnotices : Along (step sampleConf 4) Notices oneWorker workerReleased := by
    decide +kernel
  have hrun : (run (step sampleConf 4) oneWorker workerReleased).map (fun s => s.main) =
      some (.joining 0) := by decide +kernel
  obtain ⟨s, hs, hmain⟩ := Option.map_eq_some_iff.mp hrun
  have h := activeFds_protect sampleConf 1 4 [0, 1, 2, 3] _ hs
  exact ⟨s, hs, hmain, h.1.mpr hkeeps, h.2 hnotices⟩

/-- `main` closes the descriptor first. -/
def closedWhileRegistered : List (Label 1) := signalWhileReading ++ [.main]

/-- `SIGINT` arrives between the worker's test of the flag and its store into the table.
`main` reads a zero, and the worker goes on to wait for its client. -/
def registersLate : List (Label 1) :=
  [.worker 0, .main, .accept 5, .monitor (.lock .main), .monitor (.critical .main ∅), .main,
    .monitor (.lock (.worker 0)), .monitor (.critical (.worker 0) ∅), .worker 0,
    .monitor .sigint, .main, .monitor (.lock .main), .monitor (.critical .main ∅),
    .main, .monitor (.lock .main), .monitor (.critical .main ∅), .main,
    .monitor (.lock (.worker 0)), .monitor (.critical (.worker 0) ∅), .worker 0]

theorem activeFds_do_not_protect :
    (∃ s, run (step sampleConf 4) oneWorker closedWhileRegistered = some s ∧ ¬ Active s) ∧
      ∃ s, run (step sampleConf 4) oneWorker registersLate = some s ∧ ¬ Released s := by
  constructor
  · have hrun : (run (step sampleConf 4) oneWorker closedWhileRegistered).map
        (fun s => (s.monitor.queue.activeFds 0, s.table 5)) =
        some (5, .closed (.connection 0)) := by decide +kernel
    obtain ⟨s, hs, hvals⟩ := Option.map_eq_some_iff.mp hrun
    obtain ⟨hentry, hslot⟩ := Prod.mk.inj hvals
    refine ⟨s, hs, fun ha => ?_⟩
    obtain ⟨k, -, hopen⟩ := ha 0 (by simp [hentry])
    simp [hentry, hslot] at hopen
  · have hrun : (run (step sampleConf 4) oneWorker registersLate).map
        (fun s => (s.main, s.worker 0, s.accesses)) =
        some (.joining 0, .reading 0 5, []) := by decide +kernel
    obtain ⟨s, hs, hvals⟩ := Option.map_eq_some_iff.mp hrun
    simp only [Prod.mk.injEq] at hvals
    obtain ⟨hmain, hpc, haccesses⟩ := hvals
    refine ⟨s, hs, fun hreleased => ?_⟩
    obtain ⟨a, ha, -⟩ := hreleased 0 0 5 hmain hpc
    simp [haccesses] at ha

end Pool
end BareHttp
