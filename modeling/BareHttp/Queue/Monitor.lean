import Mathlib.Data.Fintype.Basic
import Mathlib.Data.Finset.Filter
import BareHttp.Foundation.Transition
import BareHttp.Queue.Sections

/-!
# Threads at the queue

Any finite number of threads `τ` that call the functions of `srclib/queue.c`, as a
transition system.  A thread in a call first waits for the mutex (`locking`), then
holds it at the test of its loop (`inside`), and from there either returns (`ready`,
with the value of the call) or gives the mutex up and sleeps on a condition
(`asleep`).  A thread that is woken waits for the mutex and makes its test again, so
it is `locking` once more.

`pthread_cond_signal` wakes at least one of the threads that sleep on the condition,
if there is one: the label carries those it wakes.  Wakeups without a signal are
labels of their own, and so is the arrival of `SIGINT`.  A critical section is one
step; the flag is read in it once, which is all that can be seen, because nothing
resets it.
-/

namespace BareHttp
namespace Monitor

open Transition

/-- Where a thread is. -/
inductive Phase where
  | ready (result : Option ℕ)
  | locking (c : QueueCall)
  | inside (c : QueueCall)
  | asleep (c : QueueCall) (on : Condition)
  deriving DecidableEq

/-- The condition a thread sleeps on. -/
def Phase.sleepsOn : Phase → Option Condition
  | .asleep _ on => some on
  | _ => none

/-- The call a thread is in. -/
def Phase.call : Phase → Option QueueCall
  | .ready _ => none
  | .locking c => some c
  | .inside c => some c
  | .asleep c _ => some c

/-- The value of the last call, for a thread outside. -/
def Phase.result : Phase → Option ℕ
  | .ready r => r
  | _ => none

/-- A thread that is woken goes on to take the mutex. -/
def Phase.woken : Phase → Phase
  | .asleep c _ => .locking c
  | p => p

/-- The queue, its mutex, the threads and the flag set by the signal handler. -/
structure State (τ : Type) where
  queue : Queue
  owner : Option τ
  phase : τ → Phase
  sigint : Bool

/-- What can happen next. -/
inductive Label (τ : Type) where
  | call (t : τ) (c : QueueCall)
  | lock (t : τ)
  | critical (t : τ) (woken : Finset τ)
  | spurious (t : τ)
  | sigint

variable {τ : Type}

/-- The state in front of the first call. -/
def State.initial (queueMax : ℕ) : State τ where
  queue := queueCreate queueMax
  owner := none
  phase := fun _ => .ready none
  sigint := false

/-- What every reachable state keeps: the queue is in order with the capacity it was
created with, and a thread in a critical section holds the mutex. -/
structure Ok (queueMax : ℕ) (s : State τ) : Prop where
  queue : s.queue.Ok
  capacity : s.queue.maxSize = queueMax
  holds : ∀ t c, s.phase t = .inside c → s.owner = some t

theorem ok_initial (queueMax : ℕ) : Ok queueMax (State.initial queueMax : State τ) :=
  ⟨Queue.ok_queueCreate queueMax, rfl, fun _ _ hp => Phase.noConfusion hp⟩

/-- Only the thread that holds the mutex is in a critical section. -/
theorem Ok.not_inside {queueMax : ℕ} {s : State τ} (hs : Ok queueMax s) {t u : τ}
    {c d : QueueCall} (ht : s.phase t = .inside c) (hu : u ≠ t) : s.phase u ≠ .inside d := by
  intro h
  exact hu (Option.some.inj ((hs.holds u d h).symm.trans (hs.holds t c ht)))

theorem Phase.inside_of_woken {p : Phase} {c : QueueCall} (h : p.woken = .inside c) :
    p = .inside c := by
  cases p with
  | inside d => exact h
  | asleep d on => exact absurd h (by simp [Phase.woken])
  | ready | locking => exact absurd h (by simp [Phase.woken])

variable [Fintype τ] [DecidableEq τ]

/-- The threads asleep on a condition. -/
def State.sleepers (s : State τ) (c : Condition) : Finset τ :=
  Finset.univ.filter fun t => (s.phase t).sleepsOn = some c

/-- The threads a section may wake. -/
def Wakes.Allows (s : State τ) (woken : Finset τ) : Wakes → Prop
  | .nobody => woken = ∅
  | .one c => woken ⊆ s.sleepers c ∧ (woken = ∅ → s.sleepers c = ∅)
  | .all c => woken = s.sleepers c

instance (s : State τ) (woken : Finset τ) (wakes : Wakes) :
    Decidable (Wakes.Allows s woken wakes) :=
  match wakes with
  | .nobody => inferInstanceAs (Decidable (woken = ∅))
  | .one c =>
    inferInstanceAs (Decidable (woken ⊆ s.sleepers c ∧ (woken = ∅ → s.sleepers c = ∅)))
  | .all c => inferInstanceAs (Decidable (woken = s.sleepers c))

/-- A thread sleeps and releases the mutex. -/
def State.sleep (s : State τ) (t : τ) (c : QueueCall) (on : Condition) : State τ :=
  { s with owner := none, phase := Function.update s.phase t (.asleep c on) }

/-- A thread returns from its call, having woken others. -/
def State.finish (s : State τ) (t : τ) (q : Queue) (r : Option ℕ) (woken : Finset τ) :
    State τ :=
  { s with
    queue := q
    owner := none
    phase := Function.update (fun u => if u ∈ woken then (s.phase u).woken else s.phase u) t
      (.ready r) }

/-- One step. -/
def step (s : State τ) : Label τ → Option (State τ)
  | .call t c =>
    match s.phase t with
    | .ready _ => some { s with phase := Function.update s.phase t (.locking c) }
    | _ => none
  | .lock t =>
    match s.phase t with
    | .locking c =>
      if s.owner = none then
        some { s with owner := some t, phase := Function.update s.phase t (.inside c) }
      else none
    | _ => none
  | .critical t woken =>
    match s.phase t with
    | .inside c =>
      match c.outcome s.queue s.sigint with
      | .wait on => if woken = ∅ then some (s.sleep t c on) else none
      | .done q r wakes =>
        if Wakes.Allows s woken wakes then some (s.finish t q r woken) else none
    | _ => none
  | .spurious t =>
    match s.phase t with
    | .asleep c _ => some { s with phase := Function.update s.phase t (.locking c) }
    | _ => none
  | .sigint => some { s with sigint := true }

/-- **Everything a step can do.** -/
theorem step_cases {s s' : State τ} {l : Label τ} (h : step s l = some s') :
    (∃ t c r, l = .call t c ∧ s.phase t = .ready r ∧
        s' = { s with phase := Function.update s.phase t (.locking c) }) ∨
      (∃ t c, l = .lock t ∧ s.phase t = .locking c ∧ s.owner = none ∧
        s' = { s with owner := some t, phase := Function.update s.phase t (.inside c) }) ∨
      (∃ t c on, l = .critical t ∅ ∧ s.phase t = .inside c ∧
        c.outcome s.queue s.sigint = .wait on ∧ s' = s.sleep t c on) ∨
      (∃ t c woken q r wakes, l = .critical t woken ∧ s.phase t = .inside c ∧
        c.outcome s.queue s.sigint = .done q r wakes ∧ Wakes.Allows s woken wakes ∧
        s' = s.finish t q r woken) ∨
      (∃ t c on, l = .spurious t ∧ s.phase t = .asleep c on ∧
        s' = { s with phase := Function.update s.phase t (.locking c) }) ∨
      (l = .sigint ∧ s' = { s with sigint := true }) := by
  cases l with
  | call t c =>
    left
    cases hp : s.phase t with
    | ready r =>
      simp only [step, hp] at h
      exact ⟨t, c, r, rfl, hp, (Option.some.inj h).symm⟩
    | locking | inside | asleep => simp [step, hp] at h
  | lock t =>
    right; left
    cases hp : s.phase t with
    | locking c =>
      simp only [step, hp] at h
      split at h
      · next ho => exact ⟨t, c, rfl, hp, ho, (Option.some.inj h).symm⟩
      · exact absurd h (by simp)
    | ready | inside | asleep => simp [step, hp] at h
  | critical t woken =>
    right; right
    cases hp : s.phase t with
    | inside c =>
      simp only [step, hp] at h
      cases ho : c.outcome s.queue s.sigint with
      | wait on =>
        simp only [ho] at h
        split at h
        · next hw => exact .inl ⟨t, c, on, by rw [hw], hp, ho, (Option.some.inj h).symm⟩
        · exact absurd h (by simp)
      | done q r wakes =>
        simp only [ho] at h
        split at h
        · next hw =>
          exact .inr (.inl ⟨t, c, woken, q, r, wakes, rfl, hp, ho, hw, (Option.some.inj h).symm⟩)
        · exact absurd h (by simp)
    | ready | locking | asleep => simp [step, hp] at h
  | spurious t =>
    right; right; right; right; left
    cases hp : s.phase t with
    | asleep c on =>
      simp only [step, hp] at h
      exact ⟨t, c, on, rfl, hp, (Option.some.inj h).symm⟩
    | ready | locking | inside => simp [step, hp] at h
  | sigint => exact .inr (.inr (.inr (.inr (.inr ⟨rfl, (Option.some.inj h).symm⟩))))

/-- The thread is in the same call as before, or still has the same value. -/
def Phase.Alike (p p' : Phase) : Prop := p'.call = p.call ∧ p'.result = p.result

theorem Phase.Alike.refl (p : Phase) : p.Alike p := ⟨rfl, rfl⟩

theorem Phase.alike_woken (p : Phase) : p.Alike p.woken := by
  cases p with
  | asleep c on => exact ⟨rfl, rfl⟩
  | ready | locking | inside => exact Phase.Alike.refl _

omit [Fintype τ] in
/-- A thread that only moves on within its call. -/
theorem alike_update {s : State τ} {t : τ} {p : Phase} (h : (s.phase t).Alike p) (u : τ) :
    (s.phase u).Alike (Function.update s.phase t p u) := by
  by_cases hut : u = t
  · subst hut
    rwa [Function.update_self]
  · rw [Function.update_of_ne hut]
    exact Phase.Alike.refl _

/-- **What a step inside the calls does.**  Either nothing is seen of it outside, or one
critical section returns, with its effect on the queue and its value. -/
theorem step_effect {s s' : State τ} {l : Label τ} (h : step s l = some s')
    (hl : ∀ t c, l ≠ .call t c) :
    (s'.queue = s.queue ∧ ∀ u, (s.phase u).Alike (s'.phase u)) ∨
      ∃ t c woken r wakes, l = .critical t woken ∧ s.phase t = .inside c ∧
        c.outcome s.queue s.sigint = .done s'.queue r wakes ∧ s'.phase t = .ready r ∧
        ∀ u, u ≠ t → (s.phase u).Alike (s'.phase u) := by
  rcases step_cases h with ⟨t, c, r, rfl, -, -⟩ | ⟨t, c, -, ht, -, rfl⟩ |
    ⟨t, c, on, -, ht, -, rfl⟩ | ⟨t, c, woken, q, r, wakes, rfl, ht, hdone, -, rfl⟩ |
    ⟨t, c, on, -, ht, rfl⟩ | ⟨-, rfl⟩
  · exact absurd rfl (hl t c)
  · exact .inl ⟨rfl, alike_update (by rw [ht]; exact ⟨rfl, rfl⟩)⟩
  · exact .inl ⟨rfl, alike_update (by rw [ht]; exact ⟨rfl, rfl⟩)⟩
  · refine .inr ⟨t, c, woken, r, wakes, rfl, ht, hdone, by simp [State.finish], ?_⟩
    intro u hut
    simp only [State.finish, Function.update_of_ne hut]
    split
    · exact Phase.alike_woken _
    · exact Phase.Alike.refl _
  · exact .inl ⟨rfl, alike_update (by rw [ht]; exact ⟨rfl, rfl⟩)⟩
  · exact .inl ⟨rfl, fun u => Phase.Alike.refl _⟩

/-- The flag is never reset. -/
theorem sigint_of_step {s s' : State τ} {l : Label τ} (h : step s l = some s')
    (hs : s'.sigint = false) : s.sigint = false := by
  rcases step_cases h with ⟨t, c, r, -, -, rfl⟩ | ⟨t, c, -, -, -, rfl⟩ | ⟨t, c, on, -, -, -, rfl⟩ |
    ⟨t, c, woken, q, r, wakes, -, -, -, -, rfl⟩ | ⟨t, c, on, -, -, rfl⟩ | ⟨-, rfl⟩
  · exact hs
  · exact hs
  · exact hs
  · exact hs
  · exact hs
  · exact absurd hs (by simp)

omit [Fintype τ] in
/-- The section of the thread that holds the mutex returns. -/
theorem Ok.finish {queueMax : ℕ} {s : State τ} (hs : Ok queueMax s) {t : τ} {c : QueueCall}
    {q : Queue} (ht : s.phase t = .inside c) (hq : q.Ok) (hcap : q.maxSize = s.queue.maxSize)
    (r : Option ℕ) (woken : Finset τ) : Ok queueMax (s.finish t q r woken) := by
  refine ⟨hq, hcap.trans hs.capacity, fun u d hu => ?_⟩
  by_cases hut : u = t
  · subst hut
    exact absurd hu (by simp [State.finish])
  · simp only [State.finish, Function.update_of_ne hut] at hu
    have hin : s.phase u = .inside d := by
      split at hu
      · exact Phase.inside_of_woken hu
      · exact hu
    exact absurd hin (hs.not_inside ht hut)

/-- **One step keeps the state in order.** -/
theorem step_ok {queueMax : ℕ} {s s' : State τ} {l : Label τ} (hs : Ok queueMax s)
    (h : step s l = some s') : Ok queueMax s' := by
  have hother : ∀ {t u : τ} {p : Phase} {c : QueueCall}, (∀ d, p ≠ .inside d) →
      Function.update s.phase t p u = .inside c → s.phase u = .inside c := by
    intro t u p c hp hu
    by_cases hut : u = t
    · subst hut
      rw [Function.update_self] at hu
      exact absurd hu (hp c)
    · rwa [Function.update_of_ne hut] at hu
  rcases step_cases h with ⟨t, c, r, -, -, rfl⟩ | ⟨t, c, -, -, ho, rfl⟩ |
    ⟨t, c, on, -, ht, -, rfl⟩ | ⟨t, c, woken, q, r, wakes, -, ht, hdone, -, rfl⟩ |
    ⟨t, c, on, -, -, rfl⟩ | ⟨-, rfl⟩
  · exact ⟨hs.queue, hs.capacity, fun u d hu => hs.holds u d (hother (by simp) hu)⟩
  · refine ⟨hs.queue, hs.capacity, fun u d hu => ?_⟩
    by_cases hut : u = t
    · rw [hut]
    · have hin : s.phase u = .inside d := (Function.update_of_ne hut _ _).symm.trans hu
      exact absurd (hs.holds u d hin) (by simp [ho])
  · refine ⟨hs.queue, hs.capacity, fun u d hu => ?_⟩
    by_cases hut : u = t
    · subst hut
      exact absurd hu (by simp [State.sleep])
    · exact absurd (hother (by simp) hu) (hs.not_inside ht hut)
  · obtain ⟨hok, hcap⟩ := QueueCall.outcome_ok hs.queue hdone
    exact hs.finish ht hok hcap r woken
  · exact ⟨hs.queue, hs.capacity, fun u d hu => hs.holds u d (hother (by simp) hu)⟩
  · exact ⟨hs.queue, hs.capacity, hs.holds⟩

/-- **The mutex excludes.**  In a reachable state two threads in critical sections are
one thread. -/
theorem inside_unique {queueMax : ℕ} {ls : List (Label τ)} {s : State τ}
    (h : run step (State.initial queueMax) ls = some s) {t u : τ} {c d : QueueCall}
    (ht : s.phase t = .inside c) (hu : s.phase u = .inside d) : u = t := by
  have hok : Ok queueMax s := run_invariant (fun _ _ _ => step_ok) (ok_initial queueMax) h
  by_contra hne
  exact hok.not_inside ht hne hu

end Monitor
end BareHttp
