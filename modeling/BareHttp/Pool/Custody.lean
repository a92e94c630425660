import BareHttp.Pool.Moves

/-!
# Who still has to close a connection

A connection that was accepted is closed by the thread that has it last: `main` until it
is pushed, nobody while it is in the ring, and a worker from the pop on until it has
made its `close`.  `Held` says who that is, and `Handover` how one step changes it.

At shutdown three of the hand-overs drop the connection.  `queue_push` returns without
storing the descriptor once `sigint` is set, a worker that has just popped one leaves
its loop without closing it, and nothing empties the ring before `queue_destroy` frees
it.  So everything that was accepted is closed when `main` returns, if `SIGINT` finds
none of these and nothing is accepted behind it (`closed_of_settled`).
-/

namespace BareHttp
namespace Pool

open Transition

variable {n : ℕ}

/-- The connection a worker has to close, with its number. -/
def WorkerPc.holds (result : Option ℕ) : WorkerPc → Option (ℕ × ℕ)
  | .popped k => result.map fun fd => (k, fd)
  | .registering k fd => some (k, fd)
  | .reading k fd => some (k, fd)
  | .acting k fd cs => if .close ∈ cs then some (k, fd) else none
  | .unregistering k fd cs => if .close ∈ cs then some (k, fd) else none
  | _ => none

/-- Connection `k`, accepted under the number `fd`, is in the place. -/
def Held (s : State n) : Place n → ℕ → ℕ → Prop
  | .thread .main, k, fd => s.main = .pushing k fd ∧ (s.monitor.phase .main).call ≠ none
  | .queue, k, fd => (fd, k) ∈ s.monitor.queue.contents.zip s.queued
  | .thread (.worker i), k, fd =>
    (s.worker i).holds (s.monitor.phase (.worker i)).result = some (k, fd)

/-- From `s` to `s'` the places keep what they have, but for what is lost and gained. -/
structure Transfers (s s' : State n) (lost gained : Option (Place n × ℕ × ℕ)) : Prop where
  keeps : ∀ p k fd, Held s p k fd → Held s' p k fd ∨ lost = some (p, k, fd)
  new : ∀ p k fd, Held s' p k fd → Held s p k fd ∨ gained = some (p, k, fd)
  gains : ∀ p k fd, gained = some (p, k, fd) → Held s' p k fd

/-- **How a step changes who has to close what.** -/
inductive Handover (s s' : State n) : Label n → Prop where
  | stays {l : Label n} (h : Transfers s s' none none) (hqueued : s'.queued = s.queued)
      (haccepted : s'.accepted = s.accepted) : Handover s s' l
  | accepted {fd : ℕ} (h : Transfers s s' none (some (.thread .main, s.accepted, fd)))
      (hqueued : s'.queued = s.queued) (haccepted : s'.accepted = s.accepted + 1) :
      Handover s s' (.accept fd)
  | stored {k fd : ℕ} {l : Label n}
      (h : Transfers s s' (some (.thread .main, k, fd)) (some (.queue, k, fd)))
      (hqueued : s'.queued = s.queued ++ [k]) (haccepted : s'.accepted = s.accepted)
      (hold : Held s (.thread .main) k fd) (hleft : ∀ k fd, ¬ Held s' (.thread .main) k fd) :
      Handover s s' l
  | refused {k fd : ℕ} {l : Label n} (h : Transfers s s' (some (.thread .main, k, fd)) none)
      (hqueued : s'.queued = s.queued) (haccepted : s'.accepted = s.accepted)
      (hold : Held s (.thread .main) k fd) (hsigint : s.monitor.sigint = true) : Handover s s' l
  | taken {i : Fin n} {k fd : ℕ} {l : Label n}
      (h : Transfers s s' (some (.queue, k, fd)) (some (.thread (.worker i), k, fd)))
      (hqueued : s.queued = k :: s'.queued) (haccepted : s'.accepted = s.accepted)
      (hold : Held s .queue k fd) : Handover s s' l
  | abandoned {i : Fin n} {k fd : ℕ} {l : Label n}
      (h : Transfers s s' (some (.thread (.worker i), k, fd)) none)
      (hqueued : s'.queued = s.queued) (haccepted : s'.accepted = s.accepted)
      (hpc : s.worker i = .popped k) (hsigint : s.monitor.sigint = true) : Handover s s' l
  | closed {i : Fin n} {k fd : ℕ} {l : Label n}
      (h : Transfers s s' (some (.thread (.worker i), k, fd)) none)
      (hqueued : s'.queued = s.queued) (haccepted : s'.accepted = s.accepted)
      (htable : s'.table = Function.update s.table fd (s.table fd).close) : Handover s s' l

namespace Held

variable {s s' : State n}

theorem main_iff (hmain : s'.main = s.main)
    (halike : (s.monitor.phase .main).Alike (s'.monitor.phase .main)) (k fd : ℕ) :
    Held s' (.thread .main) k fd ↔ Held s (.thread .main) k fd := by
  simp only [Held, hmain, halike.1]

theorem queue_iff (hcontents : s'.monitor.queue.contents = s.monitor.queue.contents)
    (hqueued : s'.queued = s.queued) (k fd : ℕ) :
    Held s' .queue k fd ↔ Held s .queue k fd := by
  simp only [Held, hcontents, hqueued]

theorem worker_iff {i : Fin n} (hworker : s'.worker i = s.worker i)
    (halike : (s.monitor.phase (.worker i)).Alike (s'.monitor.phase (.worker i))) (k fd : ℕ) :
    Held s' (.thread (.worker i)) k fd ↔ Held s (.thread (.worker i)) k fd := by
  simp only [Held, hworker, halike.2]

end Held

namespace Transfers

variable {s s' : State n}

/-- Nothing changes hands in a step that changes nothing for any place. -/
theorem of_iff (h : ∀ p k fd, Held s' p k fd ↔ Held s p k fd) : Transfers s s' none none :=
  ⟨fun p k fd hp => .inl ((h p k fd).mpr hp), fun p k fd hp => .inl ((h p k fd).mp hp), by simp⟩

/-- What changes hands is in its new place. -/
theorem handed {p q p' : Place n} {k fd k' fd' : ℕ}
    (h : Transfers s s' (some (p, k, fd)) (some (q, k, fd))) (hold : Held s p' k' fd') :
    ∃ p, Held s' p k' fd' := by
  rcases h.keeps p' k' fd' hold with hnew | heq
  · exact ⟨p', hnew⟩
  · obtain ⟨-, rfl, rfl⟩ : p = p' ∧ k = k' ∧ fd = fd' := by simpa using heq
    exact ⟨q, h.gains q k fd rfl⟩

/-- A step of `main`, which leaves the ring and the workers alone. -/
theorem of_main {lost gained : Option (Place n × ℕ × ℕ)}
    (hcontents : s'.monitor.queue.contents = s.monitor.queue.contents)
    (hqueued : s'.queued = s.queued) (hworker : s'.worker = s.worker)
    (halike : ∀ u, u ≠ .main → (s.monitor.phase u).Alike (s'.monitor.phase u))
    (hlost : ∀ k fd, Held s (.thread .main) k fd → lost = some (.thread .main, k, fd))
    (hgained : ∀ k fd, Held s' (.thread .main) k fd → gained = some (.thread .main, k, fd))
    (hgains : ∀ p k fd, gained = some (p, k, fd) → Held s' p k fd) :
    Transfers s s' lost gained := by
  have hq := Held.queue_iff hcontents hqueued
  have hw : ∀ i, _ := fun i =>
    Held.worker_iff (i := i) (congrFun hworker i) (halike (.worker i) (by simp))
  refine ⟨?_, ?_, hgains⟩
  · rintro (_ | _ | i) k fd hp
    · exact .inl ((hq k fd).mpr hp)
    · exact .inr (hlost k fd hp)
    · exact .inl ((hw i k fd).mpr hp)
  · rintro (_ | _ | i) k fd hp
    · exact .inl ((hq k fd).mp hp)
    · exact .inr (hgained k fd hp)
    · exact .inl ((hw i k fd).mp hp)

/-- A step of a worker, which leaves the ring, `main` and the other workers alone. -/
theorem of_worker {i : Fin n} {lost gained : Option (Place n × ℕ × ℕ)}
    (hcontents : s'.monitor.queue.contents = s.monitor.queue.contents)
    (hqueued : s'.queued = s.queued) (hmain : s'.main = s.main)
    (hworker : ∀ j, j ≠ i → s'.worker j = s.worker j)
    (halike : ∀ u, u ≠ .worker i → (s.monitor.phase u).Alike (s'.monitor.phase u))
    (hlost : ∀ k fd, Held s (.thread (.worker i)) k fd →
      Held s' (.thread (.worker i)) k fd ∨ lost = some (.thread (.worker i), k, fd))
    (hgained : ∀ k fd, Held s' (.thread (.worker i)) k fd →
      Held s (.thread (.worker i)) k fd ∨ gained = some (.thread (.worker i), k, fd))
    (hgains : ∀ p k fd, gained = some (p, k, fd) → Held s' p k fd) :
    Transfers s s' lost gained := by
  have hq := Held.queue_iff hcontents hqueued
  have hm := Held.main_iff hmain (halike .main (by simp))
  have hw : ∀ j, j ≠ i → ∀ k fd, _ := fun j hj =>
    Held.worker_iff (hworker j hj) (halike (.worker j) (by simpa using hj))
  refine ⟨?_, ?_, hgains⟩
  · rintro (_ | _ | j) k fd hp
    · exact .inl ((hq k fd).mpr hp)
    · exact .inl ((hm k fd).mpr hp)
    · by_cases hj : j = i
      · subst hj
        exact hlost k fd hp
      · exact .inl ((hw j hj k fd).mpr hp)
  · rintro (_ | _ | j) k fd hp
    · exact .inl ((hq k fd).mp hp)
    · exact .inl ((hm k fd).mp hp)
    · by_cases hj : j = i
      · subst hj
        exact hgained k fd hp
      · exact .inl ((hw j hj k fd).mp hp)

/-- A worker goes on with what it has. -/
theorem of_goto (i : Fin n) (pc : WorkerPc)
    (hcontents : s'.monitor.queue.contents = s.monitor.queue.contents)
    (hqueued : s'.queued = s.queued) (hmain : s'.main = s.main)
    (hworker : s'.worker = Function.update s.worker i pc)
    (halike : ∀ u, u ≠ .worker i → (s.monitor.phase u).Alike (s'.monitor.phase u))
    (hholds : pc.holds (s'.monitor.phase (.worker i)).result =
      (s.worker i).holds (s.monitor.phase (.worker i)).result) : Transfers s s' none none := by
  have hself : ∀ k fd, Held s' (.thread (.worker i)) k fd ↔ Held s (.thread (.worker i)) k fd := by
    intro k fd
    simp only [Held, hworker, Function.update_self, hholds]
  refine of_worker (i := i) hcontents hqueued hmain (fun j hj => ?_) halike
    (fun k fd hp => .inl ((hself k fd).mpr hp)) (fun k fd hp => .inl ((hself k fd).mp hp))
    (by simp)
  rw [hworker, Function.update_of_ne hj]

end Transfers

/-- Every iteration closes the connection. -/
theorem close_mem_program (sc : ServerConf) (st : Worker.State) (c : Worker.Connection) :
    SysCall.close ∈ program sc st c := by
  refine List.mem_append_right _ ?_
  unfold ending
  split <;> simp

theorem SysCall.ne_close_of_uses {c : SysCall} {kind : Kind} (h : c.uses = some kind) :
    c ≠ .close := by
  rintro rfl
  exact absurd h (by simp [SysCall.uses])

theorem SysCall.mem_close_cons {c : SysCall} {cs : List SysCall} (hc : c ≠ .close) :
    SysCall.close ∈ c :: cs ↔ SysCall.close ∈ cs := by
  simp [hc.symm]

namespace Move

variable {sc : ServerConf} {queueMax sockfd : ℕ} {s s' : State n} {l : Label n}

/-- `main` holds a connection only while it is in `queue_push`. -/
theorem not_held_main {k fd : ℕ} {pc : MainPc n} (hmain : s.main = pc)
    (hpc : ∀ k fd, pc ≠ .pushing k fd) : ¬ Held s (.thread .main) k fd := by
  rintro ⟨hpush, -⟩
  exact hpc k fd (hmain.symm.trans hpush)

/-- `main` goes on outside `queue_push`. -/
theorem handover_main {pc pc' : MainPc n} (hmain : s.main = pc) (hmain' : s'.main = pc')
    (hpc : ∀ k fd, pc ≠ .pushing k fd) (hpc' : ∀ k fd, pc' ≠ .pushing k fd)
    (hcontents : s'.monitor.queue.contents = s.monitor.queue.contents)
    (hqueued : s'.queued = s.queued) (haccepted : s'.accepted = s.accepted)
    (hworker : s'.worker = s.worker)
    (halike : ∀ u, u ≠ .main → (s.monitor.phase u).Alike (s'.monitor.phase u)) :
    Handover s s' l :=
  .stays (.of_main hcontents hqueued hworker halike
    (fun _ _ hp => absurd hp (not_held_main hmain hpc))
    (fun _ _ hp => absurd hp (not_held_main hmain' hpc')) (by simp)) hqueued haccepted

/-- A worker goes on with what it has, outside the queue. -/
theorem handover_goto {i : Fin n} {pc pc' : WorkerPc} {table : ℕ → Slot}
    {accesses : List (Access n)} {memory : Fin n → Worker.State} (hpc : s.worker i = pc)
    (hholds : pc'.holds (s.monitor.phase (.worker i)).result =
      pc.holds (s.monitor.phase (.worker i)).result) :
    Handover s
      { s with
        table := table
        accesses := accesses
        memory := memory
        worker := Function.update s.worker i pc' } l := by
  refine .stays (.of_goto i pc' rfl rfl rfl rfl (fun _ _ => .refl _) ?_) rfl rfl
  rw [hpc]
  exact hholds

/-- A worker goes on with what it has, into a function of the queue. -/
theorem handover_enter {i : Fin n} {pc pc' : WorkerPc} {c : QueueCall} (hpc : s.worker i = pc)
    (hholds : pc'.holds none = pc.holds (s.monitor.phase (.worker i)).result) :
    Handover s { s.goto i pc' with monitor := s.monitor.enter (.worker i) c } l := by
  refine .stays (.of_goto i pc' rfl rfl rfl rfl
    (fun _ hu => Monitor.enter_alike c hu) ?_) rfl rfl
  rw [hpc, ← hholds]
  show pc'.holds ((s.monitor.enter (.worker i) c).phase (.worker i)).result = _
  rw [Monitor.enter_phase_self]
  rfl

/-- A worker goes on with what it has, behind a function of the queue. -/
theorem handover_section {i : Fin n} {q : Queue} {r : Option ℕ} {woken : Finset (Thread n)}
    (hq : q.contents = s.monitor.queue.contents)
    (hholds : (s.worker i).holds r = (s.worker i).holds (s.monitor.phase (.worker i)).result) :
    Handover s { s with monitor := s.monitor.finish (.worker i) q r woken } l := by
  refine .stays (.of_goto i (s.worker i) hq rfl rfl
    (Function.update_eq_self i s.worker).symm (fun _ hu => Monitor.finish_alike q r woken hu) ?_)
    rfl rfl
  show (s.worker i).holds ((s.monitor.finish (.worker i) q r woken).phase (.worker i)).result = _
  rw [Monitor.finish_phase_self]
  exact hholds

/-- `queue_push` stores the descriptor. -/
theorem handover_stored (hc : Consistent queueMax s) {k fd : ℕ} {woken : Finset (Thread n)}
    (hmain : s.main = .pushing k fd) (hin : s.monitor.phase .main = .inside (.push fd))
    (hroom : s.monitor.queue.size ≠ s.monitor.queue.maxSize)
    (hmonitor : s'.monitor = s.monitor.finish .main (s.monitor.queue.store fd) none woken)
    (hqueued : s'.queued = s.queued ++ [k]) (haccepted : s'.accepted = s.accepted)
    (hworker : s'.worker = s.worker) : Handover s s' l := by
  have hzip : s'.monitor.queue.contents.zip s'.queued =
      s.monitor.queue.contents.zip s.queued ++ [(fd, k)] := by
    rw [hmonitor, hqueued]
    show (s.monitor.queue.store fd).contents.zip (s.queued ++ [k]) = _
    rw [hc.monitor.queue.contents_store hroom, List.zip_append hc.length.symm]
    rfl
  have hw : ∀ i k' fd', Held s' (.thread (.worker i)) k' fd' ↔
      Held s (.thread (.worker i)) k' fd' := by
    intro i
    refine Held.worker_iff (congrFun hworker i) ?_
    rw [hmonitor]
    exact Monitor.finish_alike _ _ _ (by simp)
  have hleft : ∀ k' fd', ¬ Held s' (.thread .main) k' fd' := by
    intro k' fd' hp
    refine absurd ?_ hp.2
    rw [hmonitor, Monitor.finish_phase_self]
    rfl
  suffices htr : Transfers s s' (some (.thread .main, k, fd)) (some (.queue, k, fd)) from
    .stored htr hqueued haccepted ⟨hmain, by rw [hin]; simp [Monitor.Phase.call]⟩ hleft
  refine ⟨?_, ?_, ?_⟩
  · rintro (_ | _ | i) k' fd' hp
    · left
      show (fd', k') ∈ s'.monitor.queue.contents.zip s'.queued
      rw [hzip]
      exact List.mem_append_left _ hp
    · right
      obtain ⟨rfl, rfl⟩ := MainPc.pushing.inj (hmain.symm.trans hp.1)
      rfl
    · exact .inl ((hw i k' fd').mpr hp)
  · rintro (_ | _ | i) k' fd' hp
    · simp only [Held, hzip] at hp
      rcases List.mem_append.mp hp with hp | hp
      · exact .inl hp
      · obtain ⟨rfl, rfl⟩ := Prod.mk.inj (List.mem_singleton.mp hp)
        exact .inr rfl
    · exact absurd hp (hleft k' fd')
    · exact .inl ((hw i k' fd').mp hp)
  · rintro p k' fd' hp
    obtain ⟨rfl, rfl, rfl⟩ : Place.queue = p ∧ k = k' ∧ fd = fd' := by simpa using hp
    simp [Held, hzip]

/-- `queue_pop` takes a descriptor. -/
theorem handover_taken (hc : Consistent queueMax s) {i : Fin n} {k : ℕ}
    {woken : Finset (Thread n)} (hpc : s.worker i = .popping)
    (hsome : s.monitor.queue.size ≠ 0) (hqueued : s.queued = k :: s'.queued)
    (haccepted : s'.accepted = s.accepted)
    (hmonitor : s'.monitor = s.monitor.finish (.worker i) s.monitor.queue.advance
      (some s.monitor.queue.first) woken)
    (hmain : s'.main = s.main) (hworker : s'.worker = Function.update s.worker i (.popped k)) :
    Handover s s' l := by
  have hzip : s.monitor.queue.contents.zip s.queued =
      (s.monitor.queue.first, k) :: s'.monitor.queue.contents.zip s'.queued := by
    rw [hc.monitor.queue.contents_eq_cons hsome, hqueued, hmonitor]
    rfl
  have halike : ∀ u, u ≠ .worker i → (s.monitor.phase u).Alike (s'.monitor.phase u) := by
    intro u hu
    rw [hmonitor]
    exact Monitor.finish_alike _ _ _ hu
  have hm := Held.main_iff hmain (halike .main (by simp))
  have hw : ∀ j, j ≠ i → ∀ k' fd', Held s' (.thread (.worker j)) k' fd' ↔
      Held s (.thread (.worker j)) k' fd' := by
    intro j hj
    refine Held.worker_iff ?_ (halike _ (by simpa using hj))
    rw [hworker, Function.update_of_ne hj]
  suffices htr : Transfers s s' (some (.queue, k, s.monitor.queue.first))
      (some (.thread (.worker i), k, s.monitor.queue.first)) from
    .taken htr hqueued haccepted (by simp [Held, hzip])
  refine ⟨?_, ?_, ?_⟩
  · rintro (_ | _ | j) k' fd' hp
    · simp only [Held, hzip] at hp
      rcases List.mem_cons.mp hp with hp | hp
      · obtain ⟨rfl, rfl⟩ := Prod.mk.inj hp
        exact .inr rfl
      · exact .inl hp
    · exact .inl ((hm k' fd').mpr hp)
    · by_cases hj : j = i
      · subst hj
        exact absurd hp (by simp [Held, hpc, WorkerPc.holds])
      · exact .inl ((hw j hj k' fd').mpr hp)
  · rintro (_ | _ | j) k' fd' hp
    · left
      simp only [Held, hzip]
      exact List.mem_cons_of_mem _ hp
    · exact .inl ((hm k' fd').mp hp)
    · by_cases hj : j = i
      · subst hj
        simp only [Held, hworker, Function.update_self, hmonitor, Monitor.finish_phase_self] at hp
        obtain ⟨rfl, rfl⟩ := Prod.mk.inj (Option.some.inj hp)
        exact .inr rfl
      · exact .inl ((hw j hj k' fd').mp hp)
  · rintro p k' fd' hp
    obtain ⟨rfl, rfl, rfl⟩ : Place.thread (.worker i) = p ∧ k = k' ∧
        s.monitor.queue.first = fd' := by simpa using hp
    simp only [Held, hworker, Function.update_self, hmonitor, Monitor.finish_phase_self]
    rfl

/-- A worker leaves its loop, with a descriptor if it has just popped one. -/
theorem handover_exits (hc : Consistent queueMax s) {i : Fin n}
    (hpc : s.worker i = .top ∨ s.worker i = .popping ∨ ∃ k, s.worker i = .popped k)
    (hsigint : s.monitor.sigint = true) : Handover s (s.goto i .exited) l := by
  rcases hpc with hpc | hpc | ⟨k, hpc⟩
  · exact handover_goto hpc rfl
  · exact handover_goto hpc rfl
  · have hat := hc.workerAt i
    rw [hpc] at hat
    obtain ⟨-, fd, hresult⟩ := hat
    suffices htr : Transfers s (s.goto i .exited) (some (.thread (.worker i), k, fd)) none from
      .abandoned htr rfl rfl hpc hsigint
    refine Transfers.of_worker rfl rfl rfl (fun j hj => Function.update_of_ne hj _ _)
      (fun _ _ => .refl _) (fun k' fd' hp => .inr ?_) (fun k' fd' hp => ?_) (by simp)
    · simp only [Held, hpc, hresult] at hp
      obtain ⟨rfl, rfl⟩ := Prod.mk.inj (Option.some.inj hp)
      rfl
    · exact absurd hp (by simp [Held, State.goto, WorkerPc.holds])

/-- A worker closes its connection. -/
theorem handover_closed {i : Fin n} {k fd : ℕ} {cs : List SysCall}
    (hpc : s.worker i = .acting k fd (.close :: cs)) :
    Handover s ((s.close (.worker i) (some k) fd).goto i (.acting k fd cs)) l := by
  have hhas : ∀ k' fd', Held s (.thread (.worker i)) k' fd' ↔ (k, fd) = (k', fd') := by
    intro k' fd'
    simp only [Held, hpc, WorkerPc.holds, List.mem_cons_self, if_true, Option.some.injEq]
  suffices htr : Transfers s ((s.close (.worker i) (some k) fd).goto i (.acting k fd cs))
      (some (.thread (.worker i), k, fd)) none from .closed htr rfl rfl rfl
  refine Transfers.of_worker rfl rfl rfl (fun j hj => Function.update_of_ne hj _ _)
    (fun _ _ => .refl _) (fun k' fd' hp => .inr ?_)
    (fun k' fd' hp => .inl ((hhas k' fd').mpr ?_)) (by simp)
  · obtain ⟨rfl, rfl⟩ := Prod.mk.inj ((hhas k' fd').mp hp)
    rfl
  · simp only [Held, State.goto, Function.update_self, WorkerPc.holds] at hp
    split at hp
    · exact Option.some.inj hp
    · exact absurd hp (by simp)

/-- **Every step hands over at most one connection.** -/
theorem handover (hc : Consistent queueMax s) (h : Move sc sockfd s l s') : Handover s s' l := by
  cases h with
  | quiet hstep hqueue halike =>
    refine .stays (.of_iff ?_) rfl rfl
    rintro (_ | _ | i) k fd
    · simp only [Held, hqueue]
    · simp only [Held, (halike .main).1]
    · simp only [Held, (halike (.worker i)).2]
  | stored hmain hin hsigint hroom => exact handover_stored hc hmain hin hroom rfl rfl rfl rfl
  | refused hmain hin hsigint =>
    refine .refused ?_ rfl rfl ⟨hmain, by rw [hin]; simp [Monitor.Phase.call]⟩ hsigint
    refine Transfers.of_main rfl rfl rfl (fun _ hu => Monitor.finish_alike _ _ _ hu)
      (fun k' fd' hp => ?_) (fun k' fd' hp => ?_) (by simp)
    · obtain ⟨rfl, rfl⟩ := MainPc.pushing.inj (hmain.symm.trans hp.1)
      rfl
    · refine absurd ?_ hp.2
      rw [Monitor.finish_phase_self]
      rfl
  | broadcast hmain hin _ =>
    exact handover_main hmain hmain (by simp) (by simp) rfl rfl rfl rfl
      fun _ hu => Monitor.finish_alike _ _ _ hu
  | looked hmain hin =>
    exact handover_main hmain hmain (by simp) (by simp) rfl rfl rfl rfl
      fun _ hu => Monitor.finish_alike _ _ _ hu
  | taken hpc hin hsigint hsome hqueued =>
    exact handover_taken hc hpc hsome hqueued rfl rfl rfl rfl
  | missed hpc hin _ => exact handover_section rfl (by rw [hpc]; rfl)
  | registered hpc hin => exact handover_section rfl (by rw [hpc]; rfl)
  | unregistered hpc hin => exact handover_section rfl (by rw [hpc]; rfl)
  | accepts hmain hfree =>
    refine .accepted (Transfers.of_main rfl rfl rfl (fun _ hu => Monitor.enter_alike _ hu)
      (fun k' fd' hp => absurd hp (not_held_main hmain (by simp))) (fun k' fd' hp => ?_)
      fun p k' fd' hp => ?_) rfl rfl
    · obtain ⟨rfl, rfl⟩ := MainPc.pushing.inj hp.1
      rfl
    · obtain ⟨rfl, rfl, rfl⟩ : Place.thread .main = p ∧ s.accepted = k' ∧ _ = fd' := by
        simpa using hp
      refine ⟨rfl, ?_⟩
      rw [Monitor.enter_phase_self]
      simp [Monitor.Phase.call]
  | breaks hmain =>
    exact handover_main hmain rfl (by simp) (by simp) rfl rfl rfl rfl
      fun _ hu => Monitor.enter_alike _ hu
  | stops hmain _ =>
    exact handover_main hmain rfl (by simp) (by simp) rfl rfl rfl rfl
      fun _ hu => Monitor.enter_alike _ hu
  | waits hmain _ =>
    exact handover_main hmain rfl (by simp) (by simp) rfl rfl rfl rfl fun _ _ => .refl _
  | loops hmain hcall =>
    exact .stays (Transfers.of_main rfl rfl rfl (fun _ _ => .refl _)
      (fun _ _ hp => absurd hcall hp.2) (fun _ _ hp => absurd hp.1 (by simp)) (by simp)) rfl rfl
  | scans hhead =>
    rcases hhead with ⟨hmain, -, -⟩ | ⟨j, hmain, -, -⟩
    · exact handover_main hmain rfl (by simp) (by simp) rfl rfl rfl rfl
        fun _ hu => Monitor.enter_alike _ hu
    · exact handover_main hmain rfl (by simp) (by simp) rfl rfl rfl rfl
        fun _ hu => Monitor.enter_alike _ hu
  | joins hhead =>
    rcases hhead with ⟨hmain, -, -⟩ | ⟨j, hmain, -, -⟩
    · exact handover_main hmain rfl (by simp) (by simp) rfl rfl rfl rfl fun _ _ => .refl _
    · exact handover_main hmain rfl (by simp) (by simp) rfl rfl rfl rfl fun _ _ => .refl _
  | finds hmain _ _ | findsNone hmain _ | shuts hmain | closes hmain | returns hmain =>
    exact handover_main hmain rfl (by simp) (by simp) rfl rfl rfl rfl fun _ _ => .refl _
  | exits hpc hcall hsigint => exact handover_exits hc hpc hsigint
  | pops hpc _ => exact handover_enter hpc rfl
  | registers hpc hphase _ => exact handover_enter hpc (by rw [hphase]; rfl)
  | reads hpc hcall => exact handover_goto hpc rfl
  | opensFile hpc _ => exact handover_goto hpc (by simp [WorkerPc.holds])
  | closesFile hpc => exact handover_goto hpc (by simp [WorkerPc.holds])
  | uses hpc huses =>
    refine handover_goto hpc ?_
    simp only [WorkerPc.holds, SysCall.mem_close_cons (SysCall.ne_close_of_uses huses)]
  | closesConnection hpc => exact handover_closed hpc
  | unregisters hpc => exact handover_enter hpc (by simp [WorkerPc.holds])
  | repeats hpc => exact handover_goto hpc rfl
  | resumes hpc hcall => exact handover_goto hpc rfl
  | recv hpc => exact handover_goto hpc rfl
  | received hpc => exact handover_goto hpc (by simp [WorkerPc.holds, close_mem_program])

end Move

/-! ## One place at a time -/

/-- Every connection is in one place at most, and those to come are with `main`. -/
structure Placed (place : ℕ → Place n) (s : State n) : Prop where
  held : ∀ p k fd, Held s p k fd → place k = p
  nodup : s.queued.Nodup
  ahead : ∀ k, s.accepted ≤ k → place k = .thread .main
  known : ∀ p k fd, Held s p k fd → k < s.accepted

theorem Held.mem_queued {s : State n} {k fd : ℕ} (h : Held s .queue k fd) : k ∈ s.queued :=
  (List.of_mem_zip h).2

theorem Held.exists_of_mem_queued {queueMax : ℕ} {s : State n} (hc : Consistent queueMax s)
    {k : ℕ} (h : k ∈ s.queued) : ∃ fd, Held s .queue k fd := by
  have hmap : (s.monitor.queue.contents.zip s.queued).map Prod.snd = s.queued :=
    List.map_snd_zip (Nat.le_of_eq hc.length)
  rw [← hmap] at h
  obtain ⟨⟨fd, k'⟩, hmem, rfl⟩ := List.mem_map.mp h
  exact ⟨fd, hmem⟩

namespace Placed

variable {sc : ServerConf} {queueMax sockfd : ℕ} {place : ℕ → Place n} {s s' : State n}
  {l : Label n}

/-- A connection that goes from one place to another. -/
theorem moves (hp : Placed place s) {p q : Place n} {k fd : ℕ}
    (htr : Transfers s s' (some (p, k, fd)) (some (q, k, fd))) (hold : Held s p k fd)
    (hleft : ∀ fd', ¬ Held s' p k fd') (hnodup : s'.queued.Nodup)
    (haccepted : s'.accepted = s.accepted) : Placed (Function.update place k q) s' := by
  have hlt := hp.known p k fd hold
  refine ⟨fun p' k' fd' hp' => ?_, hnodup, fun k' hk' => ?_, fun p' k' fd' hp' => ?_⟩
  · rcases htr.new p' k' fd' hp' with hold' | heq
    · have hplace := hp.held p' k' fd' hold'
      have hne : k' ≠ k := by
        rintro rfl
        obtain rfl : p = p' := (hp.held p k' fd hold).symm.trans hplace
        exact hleft fd' hp'
      rw [Function.update_of_ne hne]
      exact hplace
    · obtain ⟨rfl, rfl, rfl⟩ : q = p' ∧ k = k' ∧ fd = fd' := by simpa using heq
      exact Function.update_self _ _ _
  · rw [haccepted] at hk'
    rw [Function.update_of_ne (Nat.lt_of_lt_of_le hlt hk').ne']
    exact hp.ahead k' hk'
  · rw [haccepted]
    rcases htr.new p' k' fd' hp' with hold' | heq
    · exact hp.known p' k' fd' hold'
    · obtain ⟨rfl, rfl, rfl⟩ : q = p' ∧ k = k' ∧ fd = fd' := by simpa using heq
      exact hlt

/-- The next connection is with `main`. -/
theorem accepts (hp : Placed place s) {fd : ℕ}
    (htr : Transfers s s' none (some (.thread .main, s.accepted, fd)))
    (hqueued : s'.queued = s.queued) (haccepted : s'.accepted = s.accepted + 1) :
    Placed place s' := by
  refine ⟨fun p k fd' hp' => ?_, by rw [hqueued]; exact hp.nodup,
    fun k hk => hp.ahead k (by omega), fun p k fd' hp' => ?_⟩
  · rcases htr.new p k fd' hp' with hold | heq
    · exact hp.held p k fd' hold
    · obtain ⟨rfl, rfl, -⟩ : Place.thread .main = p ∧ s.accepted = k ∧ fd = fd' := by
        simpa using heq
      exact hp.ahead _ (Nat.le_refl _)
  · rcases htr.new p k fd' hp' with hold | heq
    · have := hp.known p k fd' hold
      omega
    · obtain ⟨-, rfl, -⟩ : Place.thread .main = p ∧ s.accepted = k ∧ fd = fd' := by
        simpa using heq
      omega

/-- **A step keeps every connection in one place.** -/
theorem of_move (hp : Placed place s) (hc : Consistent queueMax s) (h : Move sc sockfd s l s') :
    ∃ place', Placed place' s' := by
  have hsame : ∀ {lost}, Transfers s s' lost none → s'.queued = s.queued →
      s'.accepted = s.accepted → ∃ place', Placed place' s' := by
    intro lost htr hqueued haccepted
    have hold : ∀ p k fd, Held s' p k fd → Held s p k fd := fun p k fd hp' =>
      (htr.new p k fd hp').resolve_right (by simp)
    exact ⟨place, fun p k fd hp' => hp.held p k fd (hold p k fd hp'),
      by rw [hqueued]; exact hp.nodup, by rw [haccepted]; exact hp.ahead,
      fun p k fd hp' => by rw [haccepted]; exact hp.known p k fd (hold p k fd hp')⟩
  cases h.handover hc with
  | stays htr hqueued haccepted => exact hsame htr hqueued haccepted
  | refused htr hqueued haccepted => exact hsame htr hqueued haccepted
  | abandoned htr hqueued haccepted => exact hsame htr hqueued haccepted
  | closed htr hqueued haccepted => exact hsame htr hqueued haccepted
  | accepted htr hqueued haccepted => exact ⟨place, hp.accepts htr hqueued haccepted⟩
  | @stored k fd _ htr hqueued haccepted hold hleft =>
    refine ⟨_, hp.moves htr hold (hleft k) ?_ haccepted⟩
    have hnew : k ∉ s.queued := by
      intro hk
      obtain ⟨fd', hqueue⟩ := Held.exists_of_mem_queued hc hk
      exact absurd ((hp.held _ k fd' hqueue).symm.trans (hp.held _ k fd hold)) (by simp)
    rw [hqueued]
    exact hp.nodup.append (List.nodup_singleton k) (by simpa using hnew)
  | @taken i k fd _ htr hqueued haccepted hold =>
    have hnodup := hp.nodup
    rw [hqueued, List.nodup_cons] at hnodup
    exact ⟨_, hp.moves htr hold (fun fd' hq => hnodup.1 hq.mem_queued) hnodup.2 haccepted⟩

end Placed

/-! ## The shutdown -/

/-- `queue_pop` has returned a descriptor that is not registered yet. -/
def WorkerPc.justPopped : WorkerPc → Bool
  | .popped _ => true
  | _ => false

/-- `main` is in `queue_push`. -/
def State.inPush (s : State n) : Bool :=
  match s.main with
  | .pushing _ _ => (s.monitor.phase .main).call ≠ none
  | _ => false

/-- No connection is on its way: none is queued, none has just been popped, and none is
being pushed. -/
structure Drained (s : State n) : Prop where
  queue : s.monitor.queue.size = 0
  popped : ∀ i, (s.worker i).justPopped = false
  push : s.inPush = false

instance (s : State n) : Decidable (Drained s) :=
  decidable_of_iff (s.monitor.queue.size = 0 ∧ (∀ i, (s.worker i).justPopped = false) ∧
      s.inPush = false)
    ⟨fun h => ⟨h.1, h.2.1, h.2.2⟩, fun h => ⟨h.queue, h.popped, h.push⟩⟩

/-- The steps that leave no connection behind: `SIGINT` finds none on its way and none is
accepted after it.  A pool without workers serves nothing, so there the queue has to be
empty when `accept` fails, too. -/
def Settles (s : State n) : Label n → Prop
  | .monitor .sigint => Drained s
  | .accept _ => s.monitor.sigint = false
  | .acceptFails => n = 0 → s.monitor.queue.size = 0
  | _ => True

instance (s : State n) (l : Label n) : Decidable (Settles s l) :=
  match l with
  | .monitor .sigint => inferInstanceAs (Decidable (Drained s))
  | .accept _ => inferInstanceAs (Decidable (s.monitor.sigint = false))
  | .acceptFails => inferInstanceAs (Decidable (n = 0 → s.monitor.queue.size = 0))
  | .monitor (.call _ _) | .monitor (.lock _) | .monitor (.critical _ _)
  | .monitor (.spurious _) | .main | .worker _ | .recv _ | .received _ _ => .isTrue trivial

/-- `main` has left its loop. -/
def MainPc.stopped : MainPc n → Bool
  | .looping => false
  | .accepting => false
  | .pushing _ _ => false
  | _ => true

/-- `main` leaves its loop when it sees the flag, or when `accept` fails. -/
theorem Move.stopped_cases {sc : ServerConf} {sockfd : ℕ} {s s' : State n} {l : Label n}
    (h : Move sc sockfd s l s') (hs : s'.main.stopped = true) :
    s.main.stopped = true ∨ s.monitor.sigint = true ∨
      (l = .acceptFails ∧ s.main = .accepting) := by
  cases h with
  | accepts | waits | loops => exact absurd hs (by simp [MainPc.stopped])
  | breaks hmain => exact .inr (.inr ⟨rfl, hmain⟩)
  | stops _ hsigint => exact .inr (.inl hsigint)
  | scans hhead | joins hhead =>
    rcases hhead with ⟨hmain, -, -⟩ | ⟨j, hmain, -, -⟩
    · exact .inl (by rw [hmain]; rfl)
    · exact .inl (by rw [hmain]; rfl)
  | finds hmain | findsNone hmain | shuts hmain | closes hmain | returns hmain =>
    exact .inl (by rw [hmain]; rfl)
  | _ => exact .inl hs

/-- What a run keeps in which every step settles. -/
structure Custody (s : State n) : Prop where
  held : ∀ fd k, s.table fd = .opened (.connection k) → ∃ p, Held s p k fd
  closed : ∀ k, k < s.accepted → (∃ fd, s.table fd = .opened (.connection k)) ∨ 1 ≤ s.closes k
  settled : (s.monitor.sigint = true ∨ (n = 0 ∧ s.main.stopped = true)) → Drained s

theorem Held.inPush {s : State n} {k fd : ℕ} (h : Held s (.thread .main) k fd) :
    s.inPush = true := by
  obtain ⟨hmain, hcall⟩ := h
  simpa [State.inPush, hmain] using hcall

theorem exists_held_of_inPush {s : State n} (h : s.inPush = true) :
    ∃ k fd, Held s (.thread .main) k fd := by
  unfold State.inPush at h
  split at h
  · next k fd hmain => exact ⟨k, fd, hmain, by simpa using h⟩
  · exact absurd h (by simp)

/-- No place has a connection on its way. -/
theorem Drained.queued {s : State n} {queueMax : ℕ} (hc : Consistent queueMax s)
    (h : Drained s) : s.queued = [] := by
  have hlen := hc.monitor.queue.length_contents
  rw [h.queue] at hlen
  have hqueued := hc.length
  exact List.length_eq_zero_iff.mp (by omega)

namespace Custody

variable {sc : ServerConf} {queueMax sockfd : ℕ} {s s' : State n} {l : Label n}

/-- **Every open connection is still in some place.** -/
theorem held_move (hs : Custody s) (hc : Consistent queueMax s) (h : Move sc sockfd s l s') :
    ∀ fd k, s'.table fd = .opened (.connection k) → ∃ p, Held s' p k fd := by
  intro fd k hopen
  rcases h.effect.opened hopen with hold | ⟨rfl, rfl⟩
  · obtain ⟨p, hp⟩ := hs.held fd k hold
    have hkeep : ∀ {lost gained}, Transfers s s' lost gained → lost ≠ some (p, k, fd) →
        ∃ p, Held s' p k fd := by
      intro lost gained htr hne
      exact ⟨p, (htr.keeps p k fd hp).resolve_right hne⟩
    cases h.handover hc with
    | stays htr => exact hkeep htr (by simp)
    | accepted htr => exact hkeep htr (by simp)
    | stored htr => exact htr.handed hp
    | refused htr _ _ hmain hsigint =>
      have hpush := (hs.settled (.inl hsigint)).push
      exact absurd (hmain.inPush.symm.trans hpush) (by simp)
    | taken htr => exact htr.handed hp
    | @abandoned i _ _ _ htr _ _ hpc hsigint =>
      have hpopped := (hs.settled (.inl hsigint)).popped i
      exact absurd hpopped (by simp [hpc, WorkerPc.justPopped])
    | @closed i k' fd' _ htr _ _ htable =>
      refine hkeep htr fun heq => ?_
      obtain ⟨-, -, rfl⟩ : _ ∧ k' = k ∧ fd' = fd := by simpa using heq
      rw [htable, Function.update_self, hold] at hopen
      exact absurd hopen (by simp [Slot.close])
  · cases h with
    | accepts =>
      refine ⟨.thread .main, rfl, ?_⟩
      rw [Monitor.enter_phase_self]
      simp [Monitor.Phase.call]

/-- **Every connection that was accepted is open or was closed.** -/
theorem closed_move (hs : Custody s) (h : Move sc sockfd s l s') :
    ∀ k, k < s'.accepted → (∃ fd, s'.table fd = .opened (.connection k)) ∨ 1 ≤ s'.closes k := by
  intro k hk
  have hold : k < s.accepted →
      (∃ fd, s'.table fd = .opened (.connection k)) ∨ 1 ≤ s'.closes k := by
    intro hlt
    rcases hs.closed k hlt with ⟨fd, hopen⟩ | hclosed
    · rcases h.effect.open_or_closed hopen with hstill | hclosed
      · exact .inl ⟨fd, hstill⟩
      · exact .inr hclosed
    · exact .inr (Nat.le_trans hclosed (h.effect.closes_le k))
  cases h.effect with
  | keeps _ haccepted => exact hold (by rwa [haccepted] at hk)
  | opens _ _ haccepted => exact hold (by rwa [haccepted] at hk)
  | closes _ haccepted => exact hold (by rwa [haccepted] at hk)
  | @accepts fd _ htable haccepted =>
    by_cases hlt : k < s.accepted
    · exact hold hlt
    · obtain rfl : k = s.accepted := by omega
      exact .inl ⟨fd, by rw [htable, Function.update_self]⟩

/-- Nothing gets on its way but by `accept`. -/
theorem drained_move (hc : Consistent queueMax s) (hd : Drained s) (hl : ∀ fd, l ≠ .accept fd)
    (h : Move sc sockfd s l s') : Drained s' := by
  refine ⟨?_, fun i => ?_, ?_⟩
  · cases h with
    | quiet _ hqueue =>
      rw [hqueue]
      exact hd.queue
    | stored hmain hin =>
      exact absurd hd.push (by simp [State.inPush, hmain, hin, Monitor.Phase.call])
    | taken _ _ _ hsome => exact absurd hd.queue hsome
    | _ => exact hd.queue
  · rcases h.worker_eq with hsame | ⟨j, pc, hupd, -, -, hpc⟩
    · rw [hsame]
      exact hd.popped i
    · rw [hupd]
      by_cases hij : i = j
      · subst hij
        rw [Function.update_self]
        cases pc with
        | popped k => exact absurd hd.queue (hpc k rfl)
        | top | popping | registering | reading | acting | unregistering | exited => rfl
      · rw [Function.update_of_ne hij]
        exact hd.popped i
  · by_contra hpush
    obtain ⟨k, fd, hheld⟩ := exists_held_of_inPush (by simpa using hpush)
    have hmain : ¬ Held s (.thread .main) k fd := fun hold =>
      absurd (hold.inPush.symm.trans hd.push) (by simp)
    cases h.handover hc with
    | accepted => exact hl _ rfl
    | stays htr | stored htr | refused htr | taken htr | abandoned htr | closed htr =>
      exact hmain ((htr.new _ _ _ hheld).resolve_right (by simp))

/-- **A step that settles keeps custody.** -/
theorem of_move (hs : Custody s) (hc : Consistent queueMax s) (hl : Settles s l)
    (h : Move sc sockfd s l s') : Custody s' := by
  refine ⟨hs.held_move hc h, hs.closed_move h, fun hstop => ?_⟩
  by_cases hold : s.monitor.sigint = true ∨ (n = 0 ∧ s.main.stopped = true)
  · refine drained_move hc (hs.settled hold) ?_ h
    rintro fd rfl
    cases h with
    | accepts hmain =>
      rcases hold with hsigint | ⟨-, hstopped⟩
      · exact absurd (hsigint.symm.trans hl) (by simp)
      · exact absurd hstopped (by simp [hmain, MainPc.stopped])
  · have hstarts : Drained s ∧ ∀ fd, l ≠ .accept fd := by
      rcases hstop with hsigint | ⟨hn, hstopped⟩
      · rcases h.sigint_eq with heq | ⟨rfl, -⟩
        · exact absurd (.inl (heq.symm.trans hsigint)) hold
        · exact ⟨hl, by simp⟩
      · rcases h.stopped_cases hstopped with hold' | hsigint | ⟨rfl, hmain⟩
        · exact absurd (.inr ⟨hn, hold'⟩) hold
        · exact absurd (.inl hsigint) hold
        · refine ⟨⟨hl hn, fun i => absurd i.isLt (by omega), ?_⟩, by simp⟩
          simp [State.inPush, hmain]
    exact drained_move hc hstarts.1 hstarts.2 h

/-- Once `main` has returned, no place has a connection any more. -/
theorem closed_of_done (hs : Custody s) (hc : Consistent queueMax s) (hj : Joined s)
    (hdone : s.main = .done) : ∀ k, k < s.accepted → 1 ≤ s.closes k := by
  have hexited : ∀ i, s.worker i = .exited := fun i => hj.exited i (by rw [hdone]; rfl)
  have hdrained : Drained s := by
    refine hs.settled ?_
    cases n with
    | zero => exact .inr ⟨rfl, by rw [hdone]; rfl⟩
    | succ n => exact .inl (hj.sigint 0 (hexited 0))
  intro k hk
  refine (hs.closed k hk).resolve_left ?_
  rintro ⟨fd, hopen⟩
  obtain ⟨p, hp⟩ := hs.held fd k hopen
  cases p with
  | queue => exact absurd hp (by simp [Held, hdrained.queued hc])
  | thread t =>
    cases t with
    | main => exact absurd (hp.inPush.symm.trans hdrained.push) (by simp)
    | worker i => exact absurd hp (by simp [Held, hexited i, WorkerPc.holds])

end Custody

theorem custody_initial (queueMax sockfd : ℕ) (base : List ℕ) (requests : Fin n → HttpRequest) :
    Custody (State.initial queueMax sockfd base requests) := by
  refine ⟨fun fd k hopen => ?_, fun k hk => absurd hk (Nat.not_lt_zero k), fun hstop => ?_⟩
  · simp only [State.initial] at hopen
    split_ifs at hopen <;> simp at hopen
  · rcases hstop with hsigint | ⟨-, hstopped⟩
    · exact absurd hsigint (by simp [State.initial, Monitor.State.initial])
    · exact absurd hstopped (by simp [State.initial, MainPc.stopped])

/-- **No accepted connection is dropped**, in a run of `main` and any number of workers in
which `SIGINT` finds no connection in the queue, none just popped and none being pushed,
and in which none is accepted behind it: when `main` has returned, every connection that
was accepted has been closed. -/
theorem closed_of_settled (sc : ServerConf) (queueMax sockfd : ℕ) (base : List ℕ)
    (requests : Fin n → HttpRequest) {ls : List (Label n)} {s : State n}
    (hsettles : Along (step sc sockfd) Settles (State.initial queueMax sockfd base requests) ls)
    (hrun : run (step sc sockfd) (State.initial queueMax sockfd base requests) ls = some s)
    (hdone : s.main = .done) : ∀ k, k < s.accepted → 1 ≤ s.closes k := by
  have hstep : ∀ (s : State n) l s', Consistent queueMax s ∧ Joined s ∧ Custody s →
      Settles s l → step sc sockfd s l = some s' →
      Consistent queueMax s' ∧ Joined s' ∧ Custody s' := by
    rintro s l s' ⟨hc, hj, hs⟩ hl h
    have hmove := hc.move h
    exact ⟨hc.of_move hmove, hj.of_move hmove, hs.of_move hc hl hmove⟩
  obtain ⟨hc, hj, hs⟩ := run_invariant_along hstep
    ⟨consistent_initial queueMax sockfd base requests, joined_initial queueMax sockfd base requests,
      custody_initial queueMax sockfd base requests⟩ hsettles hrun
  exact hs.closed_of_done hc hj hdone

/-- `SIGINT` arrives; `main` wakes the worker, which leaves its loop, and returns. -/
def shutDown : List (Label 1) :=
  [.monitor .sigint, .main, .monitor (.lock .main), .monitor (.critical .main ∅), .worker 0,
    .main, .monitor (.lock .main), .monitor (.critical .main ∅), .main, .main, .main]

theorem clientServed_shutDown_closed :
    ∃ s, run (step sampleConf 4) oneWorker (clientServed ++ shutDown) = some s ∧
      s.main = .done ∧ s.accepted = 1 ∧ ∀ k, k < s.accepted → 1 ≤ s.closes k := by
  have hsettles : Along (step sampleConf 4) Settles oneWorker (clientServed ++ shutDown) := by
    decide +kernel
  have hrun : (run (step sampleConf 4) oneWorker (clientServed ++ shutDown)).map
      (fun s => (s.main, s.accepted)) = some (.done, 1) := by decide +kernel
  obtain ⟨s, hs, hvals⟩ := Option.map_eq_some_iff.mp hrun
  obtain ⟨hdone, haccepted⟩ := Prod.mk.inj hvals
  exact ⟨s, hs, hdone, haccepted,
    closed_of_settled sampleConf 1 4 [0, 1, 2, 3] _ hsettles hs hdone⟩

/-- A client is accepted and queued, and `SIGINT` arrives before the worker pops it. -/
def queuedAtSignal : List (Label 1) :=
  [.main, .accept 5, .monitor (.lock .main), .monitor (.critical .main ∅), .main] ++ shutDown

theorem queuedAtSignal_not_closed :
    ∃ s, run (step sampleConf 4) oneWorker queuedAtSignal = some s ∧ s.main = .done ∧
      ¬ ∀ k, k < s.accepted → 1 ≤ s.closes k := by
  have hrun : (run (step sampleConf 4) oneWorker queuedAtSignal).map
      (fun s => (s.main, s.accepted, s.closes 0)) = some (.done, 1, 0) := by decide +kernel
  obtain ⟨s, hs, hvals⟩ := Option.map_eq_some_iff.mp hrun
  simp only [Prod.mk.injEq] at hvals
  obtain ⟨hdone, haccepted, hcloses⟩ := hvals
  refine ⟨s, hs, hdone, fun h => ?_⟩
  have := h 0 (by omega)
  omega

end Pool
end BareHttp
