import BareHttp.Pool.Custody
import BareHttp.Queue.Refinement

/-!
# The order of service

Seen from outside, the thread pool is a queue of connections: `accept` puts one in, and a
`queue_pop` of a worker that returns takes one out.  Between the two are the hand of `main`, which
holds a descriptor while it is in `queue_push`, and the ring.  While there is no signal the pool
refines a bounded queue with one place more than the ring (`Move.shown_matches`): workers get the
connections in the order in which they were accepted, none of them twice and none of them skipped.

A signal ends this, since a `queue_push` that finds `sigint` set drops its descriptor.  But then
nothing is taken any more, so in every run what was taken is a first part of what was accepted
(`taken_prefix_accepted`).
-/

namespace BareHttp
namespace Pool

open Transition

variable {n : ℕ}

/-- The descriptor that `main` is about to store. -/
def State.inHand (s : State n) : List ℕ :=
  match s.main with
  | .pushing _ fd => if (s.monitor.phase .main).call = none then [] else [fd]
  | _ => []

/-- The connections that were accepted and not yet taken. -/
def State.waiting (s : State n) : List ℕ := s.monitor.queue.contents ++ s.inHand

/-- What a step shows of the order of service: a connection that is accepted, or one that a worker
takes. -/
def shown (s : State n) : Label n → Option (Fifo.Op ℕ)
  | .accept fd => some (.push fd)
  | .monitor l => (Monitor.returned s.monitor l).filter fun o => o.popped.isSome
  | _ => none

section Steps

variable {s s' : State n}

theorem inHand_of_main {pc : MainPc n} (hmain : s.main = pc) (hpc : ∀ k fd, pc ≠ .pushing k fd) :
    s.inHand = [] := by
  unfold State.inHand
  split
  · next k fd hpush => exact absurd (hmain.symm.trans hpush) (hpc k fd)
  · rfl

theorem inHand_of_pushing {k fd : ℕ} {c : QueueCall} (hmain : s.main = .pushing k fd)
    (hcall : (s.monitor.phase .main).call = some c) : s.inHand = [fd] := by
  simp [State.inHand, hmain, hcall]

theorem inHand_of_call (hcall : (s.monitor.phase .main).call = none) : s.inHand = [] := by
  unfold State.inHand
  split
  · rw [if_pos hcall]
  · rfl

/-- A step in which `main` stays where it is, and the ring as it is. -/
theorem waiting_of_same (hcontents : s'.monitor.queue.contents = s.monitor.queue.contents)
    (hmain : s'.main = s.main)
    (hcall : (s'.monitor.phase .main).call = (s.monitor.phase .main).call) :
    s'.waiting = s.waiting := by
  simp only [State.waiting, State.inHand, hcontents, hmain, hcall]

/-- A step of `main` outside `queue_push`. -/
theorem waiting_of_main (hcontents : s'.monitor.queue.contents = s.monitor.queue.contents)
    (hhand : s.inHand = []) (hhand' : s'.inHand = []) : s'.waiting = s.waiting := by
  simp only [State.waiting, hcontents, hhand, hhand']

/-- A critical section shows the call that returns in it, if that is a pop. -/
theorem shown_critical {t : Thread n} {woken : Finset (Thread n)} {c : QueueCall} {q : Queue}
    {r : Option ℕ} {wakes : Wakes} (hin : s.monitor.phase t = .inside c)
    (hdone : c.outcome s.monitor.queue s.monitor.sigint = .done q r wakes) :
    shown s (.monitor (.critical t woken)) =
      (Monitor.returnedOp c r).filter fun o => o.popped.isSome := by
  simp only [shown, Monitor.returned, hin, hdone]

/-- A step that shows nothing is matched by no operation. -/
theorem run_of_silent {cap : ℕ} {l : Label n} (hshown : shown s l = none)
    (hwaiting : s'.waiting = s.waiting) :
    run (Fifo.step cap) s.waiting (shown s l).toList = some s'.waiting := by
  rw [hshown, hwaiting]
  rfl

/-- What happens at the queue without a call that returns shows nothing. -/
theorem shown_quiet {l : Monitor.Label (Thread n)}
    (hwait : ∀ t woken, l = .critical t woken → ∃ c on, s.monitor.phase t = .inside c ∧
      c.outcome s.monitor.queue s.monitor.sigint = .wait on) : shown s (.monitor l) = none := by
  cases l with
  | critical t woken =>
    obtain ⟨c, on, hin, houtcome⟩ := hwait t woken rfl
    simp only [shown, Monitor.returned, hin, houtcome, Option.filter_none]
  | call | lock | spurious | sigint => rfl

end Steps

/-- **Each step is matched by what it shows.**  While there is no signal, a step does to the
connections that wait what it shows does to a queue. -/
theorem Move.shown_matches {sc : ServerConf} {sockfd queueMax : ℕ} {s s' : State n} {l : Label n}
    (hc : Consistent queueMax s) (hsig : s.monitor.sigint = false) (h : Move sc sockfd s l s') :
    run (Fifo.step (queueMax + 1)) s.waiting (shown s l).toList = some s'.waiting := by
  have hlen := hc.monitor.queue.length_contents
  have hsize := hc.monitor.queue.size_le
  rw [hc.monitor.capacity] at hsize
  cases h with
  | quiet hstep hqueue halike hwait =>
    exact run_of_silent (shown_quiet hwait)
      (waiting_of_same (by simp only [hqueue]) rfl (halike .main).1)
  | @stored k fd woken hmain hin hsigint hroom =>
    have hdone : QueueCall.outcome s.monitor.queue s.monitor.sigint (.push fd) =
        .done (s.monitor.queue.store fd) none (.one .notEmpty) := by
      simp [QueueCall.outcome, queuePush, hsigint, hroom]
    refine run_of_silent (by rw [shown_critical hin hdone]; rfl) ?_
    -- the descriptor goes from the hand of `main` to the end of the ring
    rw [State.waiting, State.waiting, inHand_of_pushing hmain (by rw [hin]; rfl),
      inHand_of_call (by rw [Monitor.finish_phase_self]; rfl), List.append_nil]
    exact hc.monitor.queue.contents_store hroom fd
  | refused _ _ hsigint => exact absurd hsigint (by simp [hsig])
  | broadcast hmain hin hwoken =>
    exact run_of_silent (by rw [shown_critical hin rfl]; rfl)
      (waiting_of_main rfl (inHand_of_main hmain (by simp)) (inHand_of_main hmain (by simp)))
  | looked hmain hin =>
    exact run_of_silent (by rw [shown_critical hin rfl]; rfl)
      (waiting_of_main rfl (inHand_of_main hmain (by simp)) (inHand_of_main hmain (by simp)))
  | @taken i k ks woken hpc hin hsigint hsome hqueued =>
    have hdone : QueueCall.outcome s.monitor.queue s.monitor.sigint .pop =
        .done s.monitor.queue.advance (some s.monitor.queue.first) (.one .notFull) := by
      simp [QueueCall.outcome, queuePop, hsigint, hsome]
    have hhand : State.inHand
        { s.goto i (.popped k) with
          monitor := s.monitor.finish (.worker i) s.monitor.queue.advance
            (some s.monitor.queue.first) woken
          queued := ks } = s.inHand := by
      have halike := Monitor.finish_alike (s := s.monitor) s.monitor.queue.advance
        (some s.monitor.queue.first) woken (show Thread.main ≠ .worker i by simp)
      simp only [State.inHand, State.goto, halike.1]
    rw [shown_critical hin hdone, State.waiting, State.waiting, hhand,
      hc.monitor.queue.contents_eq_cons hsome]
    exact run_one (Fifo.step_pop _ _ _)
  | missed _ _ hsigint => exact absurd hsigint (by simp [hsig])
  | registered hpc hin =>
    exact run_of_silent (by rw [shown_critical hin rfl]; rfl)
      (waiting_of_same rfl rfl (Monitor.finish_alike _ _ _ (by simp)).1)
  | unregistered hpc hin =>
    exact run_of_silent (by rw [shown_critical hin rfl]; rfl)
      (waiting_of_same rfl rfl (Monitor.finish_alike _ _ _ (by simp)).1)
  | @accepts fd hmain hfree =>
    have hhand := inHand_of_main hmain (by simp)
    have hhand' : State.inHand
        { s.opens fd (.connection s.accepted) with
          accepted := s.accepted + 1
          main := .pushing s.accepted fd
          monitor := s.monitor.enter .main (.push fd) } = [fd] :=
      inHand_of_pushing rfl (by rw [Monitor.enter_phase_self]; rfl)
    rw [State.waiting, State.waiting, hhand, hhand', List.append_nil]
    exact run_one (Fifo.step_push (by omega) fd)
  | breaks hmain =>
    exact run_of_silent rfl
      (waiting_of_main rfl (inHand_of_main hmain (by simp)) (inHand_of_main rfl (by simp)))
  | stops _ hsigint => exact absurd hsigint (by simp [hsig])
  | waits hmain _ =>
    exact run_of_silent rfl
      (waiting_of_main rfl (inHand_of_main hmain (by simp)) (inHand_of_main rfl (by simp)))
  | loops hmain hcall =>
    exact run_of_silent rfl
      (waiting_of_main rfl (inHand_of_call hcall) (inHand_of_main rfl (by simp)))
  | scans hhead =>
    rcases hhead with ⟨hmain, -, -⟩ | ⟨j, hmain, -, -⟩
    · exact run_of_silent rfl
        (waiting_of_main rfl (inHand_of_main hmain (by simp)) (inHand_of_main rfl (by simp)))
    · exact run_of_silent rfl
        (waiting_of_main rfl (inHand_of_main hmain (by simp)) (inHand_of_main rfl (by simp)))
  | joins hhead =>
    rcases hhead with ⟨hmain, -, -⟩ | ⟨j, hmain, -, -⟩
    · exact run_of_silent rfl
        (waiting_of_main rfl (inHand_of_main hmain (by simp)) (inHand_of_main rfl (by simp)))
    · exact run_of_silent rfl
        (waiting_of_main rfl (inHand_of_main hmain (by simp)) (inHand_of_main rfl (by simp)))
  | finds hmain _ _ | findsNone hmain _ | shuts hmain | closes hmain | returns hmain =>
    exact run_of_silent rfl
      (waiting_of_main rfl (inHand_of_main hmain (by simp)) (inHand_of_main rfl (by simp)))
  | exits | reads | opensFile | closesFile | uses | closesConnection | repeats | resumes | recv
  | received => exact run_of_silent rfl (waiting_of_same rfl rfl rfl)
  | pops | registers | unregisters =>
    exact run_of_silent rfl (waiting_of_same rfl rfl (Monitor.enter_alike _ (by simp)).1)

/-! ## Runs -/

/-- There is room in the ring and in the hand of `main`. -/
theorem Consistent.length_waiting {queueMax : ℕ} {s : State n} (hc : Consistent queueMax s) :
    s.waiting.length ≤ queueMax + 1 := by
  have hlen := hc.monitor.queue.length_contents
  have hsize := hc.monitor.queue.size_le
  rw [hc.monitor.capacity] at hsize
  have hhand : s.inHand.length ≤ 1 := by
    unfold State.inHand
    split
    · split_ifs <;> simp
    · simp
  rw [State.waiting, List.length_append]
  omega

/-- Behind a signal nothing is taken. -/
theorem popped_shown_of_sigint {s : State n} (hsig : s.monitor.sigint = true) (l : Label n) :
    Fifo.popped (shown s l).toList = [] := by
  cases l with
  | monitor l =>
    cases l with
    | critical t woken =>
      simp only [shown, Monitor.returned]
      split
      · next c hin =>
        split
        · next q r wakes hdone =>
          cases c with
          | pop =>
            rcases queuePop_done hdone with ⟨-, -, rfl, -⟩ | ⟨hfalse, -⟩
            · rfl
            · exact absurd hfalse (by simp [hsig])
          | push | addActiveFd | delActiveFd | getActiveFd | shutdown => rfl
        · rfl
      · rfl
    | call | lock | spurious | sigint => rfl
  | accept | acceptFails | main | worker | recv | received => rfl

/-- What every step keeps of the order of service: while there is no signal, what was shown is a
run of a queue that now holds what waits; and always, what was taken is a first part of what was
accepted. -/
structure InOrder (queueMax : ℕ) (s : State n) (ops : List (Fifo.Op ℕ)) : Prop where
  consistent : Consistent queueMax s
  queue : s.monitor.sigint = false →
    run (Fifo.step (queueMax + 1)) [] ops = some s.waiting
  taken : Fifo.popped ops <+: Fifo.pushed ops

theorem sigint_of_step {sc : ServerConf} {sockfd queueMax : ℕ} {s s' : State n} {l : Label n}
    (hc : Consistent queueMax s) (h : step sc sockfd s l = some s')
    (hsig : s'.monitor.sigint = false) : s.monitor.sigint = false := by
  cases hc.move h with
  | quiet hstep => exact Monitor.sigint_of_step hstep hsig
  | refused _ _ hsigint | missed _ _ hsigint => exact hsig
  | stored | broadcast | looked | taken | registered | unregistered | accepts | breaks | stops
  | waits | loops | scans | joins | finds | findsNone | shuts | closes | returns | exits | pops
  | registers | reads | opensFile | closesFile | uses | closesConnection | unregisters | repeats
  | resumes | recv | received => exact hsig

theorem InOrder.of_step {sc : ServerConf} {sockfd queueMax : ℕ} {s s' : State n} {l : Label n}
    {ops : List (Fifo.Op ℕ)} (h : InOrder queueMax s ops) (hstep : step sc sockfd s l = some s') :
    InOrder queueMax s' (ops ++ (shown s l).toList) := by
  have hmove := h.consistent.move hstep
  cases hsig : s.monitor.sigint with
  | false =>
    have hrun : run (Fifo.step (queueMax + 1)) [] (ops ++ (shown s l).toList) =
        some s'.waiting := by
      rw [run_append (h.queue hsig)]
      exact hmove.shown_matches h.consistent hsig
    have hall := Fifo.append_pushed_of_run hrun
    rw [List.nil_append] at hall
    refine ⟨h.consistent.of_move hmove, fun _ => hrun, ?_⟩
    rw [hall]
    exact List.prefix_append _ _
  | true =>
    refine ⟨h.consistent.of_move hmove, fun hsig' => ?_, ?_⟩
    · exact absurd (sigint_of_step h.consistent hstep hsig') (by simp [hsig])
    · rw [Fifo.popped_append, Fifo.pushed_append, popped_shown_of_sigint hsig, List.append_nil]
      exact h.taken.trans (List.prefix_append _ _)

/-- **The pool serves in order.**  In every run of the server, however the threads are scheduled,
the connections that workers take from the queue are a first part of those that were accepted, in
the order in which they were accepted.  While there is no signal, the rest of those accepted is in
the ring or in the hand of `main`, and there is at most one more of them than the ring has
places. -/
theorem taken_prefix_accepted (sc : ServerConf) (queueMax sockfd : ℕ) (base : List ℕ)
    (requests : Fin n → HttpRequest) {ls : List (Label n)} {s : State n}
    (h : run (step sc sockfd) (State.initial queueMax sockfd base requests) ls = some s) :
    let ops := trace (step sc sockfd) shown (State.initial queueMax sockfd base requests) ls
    Fifo.popped ops <+: Fifo.pushed ops ∧
      (s.monitor.sigint = false →
        Fifo.pushed ops = Fifo.popped ops ++ (s.monitor.queue.contents ++ s.inHand) ∧
          (Fifo.pushed ops).length ≤ (Fifo.popped ops).length + (queueMax + 1)) := by
  have hinitial : InOrder queueMax (State.initial queueMax sockfd base requests) [] :=
    ⟨consistent_initial queueMax sockfd base requests, fun _ => rfl, List.prefix_rfl⟩
  obtain ⟨hc, hqueue, htaken⟩ : InOrder queueMax s
      (trace (step sc sockfd) shown (State.initial queueMax sockfd base requests) ls) :=
    run_invariant_trace (fun _ _ _ _ hs hl => hs.of_step hl) hinitial h
  refine ⟨htaken, fun hsig => ?_⟩
  have hall := Fifo.append_pushed_of_run (hqueue hsig)
  rw [List.nil_append] at hall
  have hlen := hc.length_waiting
  refine ⟨hall, ?_⟩
  rw [hall, List.length_append]
  omega

/-- Two connections, of which the only worker has taken the first. -/
theorem clientHanded_in_order :
    ∃ s, run (step sampleConf 4) oneWorker (clientHanded ++ [.main, .accept 6]) = some s ∧
      Fifo.popped (trace (step sampleConf 4) shown oneWorker (clientHanded ++ [.main, .accept 6])) =
        [5] ∧
      Fifo.pushed (trace (step sampleConf 4) shown oneWorker (clientHanded ++ [.main, .accept 6])) =
        [5] ++ (s.monitor.queue.contents ++ s.inHand) := by
  have hsig : (run (step sampleConf 4) oneWorker (clientHanded ++ [.main, .accept 6])).map
      (fun s => s.monitor.sigint) = some false := by decide +kernel
  obtain ⟨s, hs, hfalse⟩ := Option.map_eq_some_iff.mp hsig
  have hpop : Fifo.popped (trace (step sampleConf 4) shown oneWorker
      (clientHanded ++ [.main, .accept 6])) = [5] := by decide +kernel
  refine ⟨s, hs, hpop, ?_⟩
  have hall :=
    ((taken_prefix_accepted sampleConf 1 4 [0, 1, 2, 3] (fun _ => .zeroed) hs).2 hfalse).1
  rw [← hpop]
  exact hall

end Pool
end BareHttp
