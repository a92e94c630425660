import BareHttp.Foundation.Fifo
import BareHttp.Queue.Monitor

/-!
# The queue is a bounded queue

What the callers of `queue_push` and `queue_pop` see is the sequence of the calls
that have returned: a push with its descriptor, a pop with its value.  While `sigint`
is not set this sequence is a run of the bounded queue of `Fifo`, and the ring holds
exactly what that queue holds.  The invariant behind it says that `rear` is `size`
cells behind `front`, which tells a full ring from an empty one although both have
`front = rear`.
-/

namespace BareHttp
namespace Monitor

open Transition

/-- The operation a returned call stands for. -/
def returnedOp : QueueCall → Option ℕ → Option (Fifo.Op ℕ)
  | .push fd, _ => some (.push fd)
  | .pop, some fd => some (.pop fd)
  | _, _ => none

variable {τ : Type}

/-- What a step shows: the call that returns in it. -/
def returned (s : State τ) : Label τ → Option (Fifo.Op ℕ)
  | .critical t _ =>
    match s.phase t with
    | .inside c =>
      match c.outcome s.queue s.sigint with
      | .done _ r _ => returnedOp c r
      | .wait _ => none
    | _ => none
  | _ => none

/-- **A returning call does to the contents what it does to a bounded queue.** -/
theorem returnedOp_matches {q q' : Queue} {c : QueueCall} {r : Option ℕ} {wakes : Wakes}
    (hq : q.Ok) (h : c.outcome q false = .done q' r wakes) :
    run (Fifo.step q.maxSize) q.contents (returnedOp c r).toList = some q'.contents := by
  cases c with
  | push fd =>
    rcases queuePush_done h with ⟨hsig, -⟩ | ⟨-, hroom, rfl, -⟩
    · exact absurd hsig (by simp)
    · have hlt : q.contents.length < q.maxSize := by
        have hlen := hq.length_contents
        have hle := hq.size_le
        omega
      rw [hq.contents_store hroom]
      exact run_cons (Fifo.step_push hlt fd) []
  | pop =>
    rcases queuePop_done h with ⟨hsig, -⟩ | ⟨-, hsome, rfl, rfl, -⟩
    · exact absurd hsig (by simp)
    · rw [hq.contents_eq_cons hsome]
      exact run_cons (Fifo.step_pop _ _ _) []
  | addActiveFd fd id | delActiveFd id | getActiveFd id | shutdown =>
    obtain ⟨rfl, -, -⟩ := Outcome.done.inj h
    rfl

variable [Fintype τ] [DecidableEq τ]

/-- **One step is matched by what it shows.** -/
theorem returned_matches {queueMax : ℕ} {s s' : State τ} {l : Label τ} (hs : Ok queueMax s)
    (hsig : s.sigint = false) (h : step s l = some s') :
    run (Fifo.step queueMax) s.queue.contents (returned s l).toList =
      some s'.queue.contents := by
  rcases step_cases h with ⟨t, c, r, rfl, -, rfl⟩ | ⟨t, c, rfl, -, -, rfl⟩ |
    ⟨t, c, on, rfl, ht, hwait, rfl⟩ | ⟨t, c, woken, q, r, wakes, rfl, ht, hdone, -, rfl⟩ |
    ⟨t, c, on, rfl, -, rfl⟩ | ⟨rfl, rfl⟩
  · rfl
  · rfl
  · simp only [returned, ht, hwait]
    rfl
  · simp only [returned, ht, hdone]
    rw [hsig] at hdone
    rw [← hs.capacity]
    exact returnedOp_matches hs.queue hdone
  · rfl
  · rfl

/-- **The queue refines a bounded queue.**  Whatever the threads do and however they are
woken, in every state reached without `SIGINT` the positions are cells of the array and
fit, the ring holds what a bounded queue holds after the calls that returned, and the
next step changes it as one operation of that queue or not at all.  What was popped is
a first part of what was pushed, and the ring holds the rest. -/
theorem queue_refines_fifo {queueMax : ℕ} (hmax : 1 ≤ queueMax) {ls : List (Label τ)}
    {s : State τ} (h : run step (State.initial queueMax) ls = some s)
    (hsig : s.sigint = false) :
    (0 ≤ s.queue.size ∧ s.queue.size ≤ s.queue.maxSize) ∧
      (s.queue.front < s.queue.maxSize ∧ s.queue.rear < s.queue.maxSize) ∧
      s.queue.rear = (s.queue.front + s.queue.size.toNat) % s.queue.maxSize ∧
      run (Fifo.step queueMax) [] (trace step returned (State.initial queueMax) ls) =
        some s.queue.contents ∧
      (∀ l s', step s l = some s' →
        run (Fifo.step queueMax) s.queue.contents (returned s l).toList =
          some s'.queue.contents) ∧
      Fifo.pushed (trace step returned (State.initial queueMax) ls) =
        Fifo.popped (trace step returned (State.initial queueMax) ls) ++ s.queue.contents := by
  have hok : Ok queueMax s := run_invariant (fun _ _ _ => step_ok) (ok_initial queueMax) h
  have hrun : run (Fifo.step queueMax) [] (trace step returned (State.initial queueMax) ls) =
      some s.queue.contents :=
    run_refines (fun _ _ _ => step_ok) (fun _ _ _ => sigint_of_step)
      (fun _ _ _ hs hQ hl => returned_matches hs hQ hl) (ok_initial queueMax) h hsig
  have hplaces : 1 ≤ s.queue.maxSize := by rwa [hok.capacity]
  refine ⟨⟨hok.queue.size_nonneg, hok.queue.size_le⟩,
    ⟨hok.queue.front_lt hplaces, hok.queue.rear_lt hplaces⟩, hok.queue.rear_eq, hrun, ?_, ?_⟩
  · intro l s' hl
    exact returned_matches hok hsig hl
  · exact Fifo.append_pushed_of_run hrun

/-- Two threads at a queue of one place.  The second finds it empty and sleeps; the
first stores `7`, which wakes it, and, once `7` is taken, `8`. -/
def handOver : List (Label (Fin 2)) :=
  [.call 1 .pop, .lock 1, .critical 1 ∅,
    .call 0 (.push 7), .lock 0, .critical 0 {1},
    .lock 1, .critical 1 ∅,
    .call 0 (.push 8), .lock 0, .critical 0 ∅]

theorem handOver_refines :
    ∃ s, run step (State.initial 1) handOver = some s ∧ s.sigint = false ∧
      Fifo.popped (trace step returned (State.initial 1) handOver) = [7] ∧
      Fifo.pushed (trace step returned (State.initial 1) handOver) =
        [7] ++ s.queue.contents := by
  have hsig : (run step (State.initial 1) handOver).map State.sigint = some false := by
    decide +kernel
  obtain ⟨s, hs, hfalse⟩ := Option.map_eq_some_iff.mp hsig
  have hpop : Fifo.popped (trace step returned (State.initial 1) handOver) = [7] := by
    decide +kernel
  refine ⟨s, hs, hfalse, hpop, ?_⟩
  have h := (queue_refines_fifo (Nat.le_refl 1) hs hfalse).2.2.2.2.2
  rwa [hpop] at h

end Monitor
end BareHttp
