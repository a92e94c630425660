import BareHttp.Foundation.Transition

/-!
# Bounded queues

A queue of capacity `cap` as a transition system: its state is the list of its
elements, a push appends one if there is room, and a pop removes the head.  A pop is
labelled with the value it takes, so a run is a statement about values too.  What
went in is then what came out followed by what is still there.
-/

namespace BareHttp
namespace Fifo

open Transition

variable {α : Type}

/-- An operation on a queue, with the value it puts in or takes out. -/
inductive Op (α : Type) where
  | push (x : α)
  | pop (x : α)
  deriving DecidableEq

/-- The value a push puts in. -/
def Op.pushed : Op α → Option α
  | .push x => some x
  | .pop _ => none

/-- The value a pop takes out. -/
def Op.popped : Op α → Option α
  | .push _ => none
  | .pop x => some x

/-- The values put in, in order. -/
def pushed (ops : List (Op α)) : List α := ops.filterMap Op.pushed

/-- The values taken out, in order. -/
def popped (ops : List (Op α)) : List α := ops.filterMap Op.popped

/-- One operation on a queue of capacity `cap`. -/
def step [DecidableEq α] (cap : ℕ) (q : List α) : Op α → Option (List α)
  | .push x => if q.length < cap then some (q ++ [x]) else none
  | .pop x =>
    match q with
    | [] => none
    | y :: q => if y = x then some q else none

theorem step_push [DecidableEq α] {cap : ℕ} {q : List α} (h : q.length < cap) (x : α) :
    step cap q (.push x) = some (q ++ [x]) :=
  if_pos h

@[simp] theorem step_pop [DecidableEq α] (cap : ℕ) (x : α) (q : List α) :
    step cap (x :: q) (.pop x) = some q :=
  if_pos rfl

/-- One operation moves at most one value, from the queue or into it. -/
theorem append_pushed_of_step [DecidableEq α] {cap : ℕ} {q r : List α} {o : Op α}
    (h : step cap q o = some r) : q ++ pushed [o] = popped [o] ++ r := by
  cases o with
  | push x =>
    simp only [step] at h
    split at h
    · rw [← Option.some.inj h]; rfl
    · exact absurd h (by simp)
  | pop x =>
    cases q with
    | nil => exact absurd h (by simp [step])
    | cons y q =>
      simp only [step] at h
      split at h
      · next hxy => rw [← Option.some.inj h, hxy]; simp [pushed, popped, Op.pushed, Op.popped]
      · exact absurd h (by simp)

/-- **Nothing is lost, duplicated or reordered**: what was there and what went in is
what came out and what is there. -/
theorem append_pushed_of_run [DecidableEq α] {cap : ℕ} {q r : List α} {ops : List (Op α)}
    (h : run (step cap) q ops = some r) : q ++ pushed ops = popped ops ++ r := by
  induction ops generalizing q with
  | nil => simp [pushed, popped, Option.some.inj h]
  | cons o ops ih =>
    obtain ⟨q', ho, hrest⟩ := run_cons_eq_some h
    have hpush : pushed (o :: ops) = pushed [o] ++ pushed ops :=
      List.filterMap_append (l := [o])
    have hpop : popped (o :: ops) = popped [o] ++ popped ops := List.filterMap_append (l := [o])
    calc q ++ pushed (o :: ops) = (q ++ pushed [o]) ++ pushed ops := by
          rw [hpush, List.append_assoc]
      _ = popped [o] ++ (q' ++ pushed ops) := by
          rw [append_pushed_of_step ho, List.append_assoc]
      _ = popped (o :: ops) ++ r := by rw [ih hrest, hpop, List.append_assoc]

theorem pushed_append (ops ops' : List (Op α)) : pushed (ops ++ ops') = pushed ops ++ pushed ops' :=
  List.filterMap_append

theorem popped_append (ops ops' : List (Op α)) : popped (ops ++ ops') = popped ops ++ popped ops' :=
  List.filterMap_append

end Fifo
end BareHttp
