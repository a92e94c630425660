import BareHttp.Foundation.Ring

/-!
# The client queue

`srclib/queue.c`, one critical section at a time.  A queue is a ring of descriptors
(`fds`, `front`, `rear`, `size`) together with the table `active_fds`, in which each
worker notes the descriptor it is serving.  Every function takes the mutex, reads and
writes the structure, and either releases the mutex for good or gives it up in
`pthread_cond_wait`.  Here a function is what it does between two such points: an
`Outcome`, computed from the queue and the flag `sigint`.

`size` is an integer because it is counted down; the positions are only ever moved on
and reduced modulo `max_size`.  The arrays are functions, `calloc` making them zero.
-/

namespace BareHttp

/-- `struct _queue`, without the mutex and the two condition variables. -/
structure Queue where
  fds : ℕ → ℕ
  maxSize : ℕ
  size : Int
  front : ℕ
  rear : ℕ
  activeFds : ℕ → ℕ

/-- `queue_create`.  The size of the pool is only the length of `active_fds`. -/
def queueCreate (queueMax : ℕ) : Queue where
  fds := fun _ => 0
  maxSize := queueMax
  size := 0
  front := 0
  rear := 0
  activeFds := fun _ => 0

namespace Queue

/-- The end of `queue_push`: the descriptor is stored and counted. -/
def store (q : Queue) (fd : ℕ) : Queue :=
  { q with
    fds := Function.update q.fds q.rear fd
    rear := (q.rear + 1) % q.maxSize
    size := q.size + 1 }

/-- The descriptor at the front. -/
def first (q : Queue) : ℕ := q.fds q.front

/-- The end of `queue_pop`: the front moves on. -/
def advance (q : Queue) : Queue :=
  { q with
    front := (q.front + 1) % q.maxSize
    size := q.size - 1 }

/-- The descriptors in the queue, oldest first. -/
def contents (q : Queue) : List ℕ := Ring.contents q.fds q.maxSize q.front q.size.toNat

/-- What every function keeps.  A queue without a place has `front = 0` for ever, which
is why `front` is said to be reduced and not to be below `max_size`. -/
structure Ok (q : Queue) : Prop where
  size_nonneg : 0 ≤ q.size
  size_le : q.size ≤ q.maxSize
  front_mod : q.front % q.maxSize = q.front
  rear_eq : q.rear = (q.front + q.size.toNat) % q.maxSize

theorem ok_queueCreate (queueMax : ℕ) : (queueCreate queueMax).Ok :=
  ⟨Int.le_refl 0, Int.natCast_nonneg _, Nat.zero_mod _, (Nat.zero_mod _).symm⟩

namespace Ok

variable {q : Queue}

/-- The front is a cell of the array. -/
theorem front_lt (h : q.Ok) (hmax : 1 ≤ q.maxSize) : q.front < q.maxSize := by
  rw [← h.front_mod]
  exact Nat.mod_lt _ hmax

/-- The rear is a cell of the array. -/
theorem rear_lt (h : q.Ok) (hmax : 1 ≤ q.maxSize) : q.rear < q.maxSize := by
  rw [h.rear_eq]
  exact Nat.mod_lt _ hmax

theorem length_contents (h : q.Ok) : (q.contents.length : Int) = q.size := by
  rw [contents, Ring.length_contents]
  exact Int.toNat_of_nonneg h.size_nonneg

theorem store (h : q.Ok) (hroom : q.size ≠ q.maxSize) (fd : ℕ) : (q.store fd).Ok := by
  have hlt : q.size < q.maxSize := Int.lt_iff_le_and_ne.mpr ⟨h.size_le, hroom⟩
  have hnat : (q.size + 1).toNat = q.size.toNat + 1 := Int.toNat_add_nat h.size_nonneg 1
  refine ⟨?_, ?_, h.front_mod, ?_⟩
  · show 0 ≤ q.size + 1
    have := h.size_nonneg
    omega
  · show q.size + 1 ≤ q.maxSize
    omega
  · show (q.rear + 1) % q.maxSize = (q.front + (q.size + 1).toNat) % q.maxSize
    rw [h.rear_eq, hnat, Nat.mod_add_mod, Nat.add_assoc]

/-- **Storing appends at the tail.** -/
theorem contents_store (h : q.Ok) (hroom : q.size ≠ q.maxSize) (fd : ℕ) :
    (q.store fd).contents = q.contents ++ [fd] := by
  have hlt : q.size < q.maxSize := Int.lt_iff_le_and_ne.mpr ⟨h.size_le, hroom⟩
  have hnat : (q.size + 1).toNat = q.size.toNat + 1 := Int.toNat_add_nat h.size_nonneg 1
  show Ring.contents (Function.update q.fds q.rear fd) q.maxSize q.front (q.size + 1).toNat = _
  rw [hnat, h.rear_eq]
  exact Ring.contents_update q.fds (by have := h.size_nonneg; omega) fd

theorem advance (h : q.Ok) (hsome : q.size ≠ 0) : q.advance.Ok := by
  have hpos : 0 < q.size := Int.lt_iff_le_and_ne.mpr ⟨h.size_nonneg, hsome.symm⟩
  have hnat : q.size.toNat = 1 + (q.size - 1).toNat := by omega
  refine ⟨?_, ?_, Nat.mod_mod _ _, ?_⟩
  · show 0 ≤ q.size - 1
    omega
  · show q.size - 1 ≤ q.maxSize
    have := h.size_le
    omega
  · show q.rear = ((q.front + 1) % q.maxSize + (q.size - 1).toNat) % q.maxSize
    rw [h.rear_eq, hnat, Nat.mod_add_mod, Nat.add_assoc]

/-- **Moving the front on removes the head.** -/
theorem contents_eq_cons (h : q.Ok) (hsome : q.size ≠ 0) :
    q.contents = q.first :: q.advance.contents := by
  have hpos : 0 < q.size := Int.lt_iff_le_and_ne.mpr ⟨h.size_nonneg, hsome.symm⟩
  have hnat : q.size.toNat = (q.size - 1).toNat + 1 := by omega
  rw [contents, hnat, Ring.contents_succ, h.front_mod]
  rfl

end Ok

end Queue

/-- The two condition variables. -/
inductive Condition where
  | notEmpty
  | notFull
  deriving DecidableEq

/-- Whom a critical section wakes before it releases the mutex. -/
inductive Wakes where
  | nobody
  | one (c : Condition)
  | all (c : Condition)
  deriving DecidableEq

/-- The end of a critical section: the mutex is given up to wait on a condition, or
the function returns.  A function without a value returns `none`, and so does
`queue_pop` where its value is `-1`. -/
inductive Outcome where
  | wait (c : Condition)
  | done (q : Queue) (result : Option ℕ) (wakes : Wakes)

/-- `queue_push`, with the mutex held at the test of the loop. -/
def queuePush (q : Queue) (fd : ℕ) (sigint : Bool) : Outcome :=
  if q.size = q.maxSize ∧ sigint = false then .wait .notFull
  else if sigint then .done q none .nobody
  else .done (q.store fd) none (.one .notEmpty)

/-- `queue_pop`, with the mutex held at the test of the loop. -/
def queuePop (q : Queue) (sigint : Bool) : Outcome :=
  if q.size = 0 ∧ sigint = false then .wait .notEmpty
  else if sigint then .done q none .nobody
  else .done q.advance (some q.first) (.one .notFull)

/-- `queue_add_active_fd`. -/
def queueAddActiveFd (q : Queue) (fd id : ℕ) : Outcome :=
  .done { q with activeFds := Function.update q.activeFds id fd } none .nobody

/-- `queue_del_active_fd`. -/
def queueDelActiveFd (q : Queue) (id : ℕ) : Outcome :=
  .done { q with activeFds := Function.update q.activeFds id 0 } none .nobody

/-- `queue_get_active_fd`. -/
def queueGetActiveFd (q : Queue) (id : ℕ) : Outcome := .done q (some (q.activeFds id)) .nobody

/-- `queue_shutdown`. -/
def queueShutdown (q : Queue) : Outcome := .done q none (.all .notEmpty)

/-- A call of one of the functions. -/
inductive QueueCall where
  | push (fd : ℕ)
  | pop
  | addActiveFd (fd id : ℕ)
  | delActiveFd (id : ℕ)
  | getActiveFd (id : ℕ)
  | shutdown
  deriving DecidableEq

/-- The critical section of a call. -/
def QueueCall.outcome (q : Queue) (sigint : Bool) : QueueCall → Outcome
  | .push fd => queuePush q fd sigint
  | .pop => queuePop q sigint
  | .addActiveFd fd id => queueAddActiveFd q fd id
  | .delActiveFd id => queueDelActiveFd q id
  | .getActiveFd id => queueGetActiveFd q id
  | .shutdown => queueShutdown q

/-- A push that returns either stored its descriptor or found `sigint` set. -/
theorem queuePush_done {q q' : Queue} {fd : ℕ} {sigint : Bool} {r : Option ℕ} {wakes : Wakes}
    (h : queuePush q fd sigint = .done q' r wakes) :
    (sigint = true ∧ q' = q ∧ r = none ∧ wakes = .nobody) ∨
      (sigint = false ∧ q.size ≠ q.maxSize ∧ q' = q.store fd ∧ r = none ∧
        wakes = .one .notEmpty) := by
  cases sigint with
  | true =>
    simp only [queuePush, Bool.true_eq_false, and_false, if_false, if_true,
      Outcome.done.injEq] at h
    exact .inl ⟨rfl, h.1.symm, h.2.1.symm, h.2.2.symm⟩
  | false =>
    by_cases hfull : q.size = q.maxSize
    · exact absurd h (by simp [queuePush, hfull])
    · simp only [queuePush, hfull, false_and, if_false, Bool.false_eq_true,
        Outcome.done.injEq] at h
      exact .inr ⟨rfl, hfull, h.1.symm, h.2.1.symm, h.2.2.symm⟩

/-- A pop that returns either took the first descriptor or found `sigint` set. -/
theorem queuePop_done {q q' : Queue} {sigint : Bool} {r : Option ℕ} {wakes : Wakes}
    (h : queuePop q sigint = .done q' r wakes) :
    (sigint = true ∧ q' = q ∧ r = none ∧ wakes = .nobody) ∨
      (sigint = false ∧ q.size ≠ 0 ∧ q' = q.advance ∧ r = some q.first ∧
        wakes = .one .notFull) := by
  cases sigint with
  | true =>
    simp only [queuePop, Bool.true_eq_false, and_false, if_false, if_true,
      Outcome.done.injEq] at h
    exact .inl ⟨rfl, h.1.symm, h.2.1.symm, h.2.2.symm⟩
  | false =>
    by_cases hempty : q.size = 0
    · exact absurd h (by simp [queuePop, hempty])
    · simp only [queuePop, hempty, false_and, if_false, Bool.false_eq_true,
        Outcome.done.injEq] at h
      exact .inr ⟨rfl, hempty, h.1.symm, h.2.1.symm, h.2.2.symm⟩

/-- **Every critical section keeps the queue in order**, and none changes its capacity. -/
theorem QueueCall.outcome_ok {q q' : Queue} {c : QueueCall} {sigint : Bool} {r : Option ℕ}
    {wakes : Wakes} (hq : q.Ok) (h : c.outcome q sigint = .done q' r wakes) :
    q'.Ok ∧ q'.maxSize = q.maxSize := by
  cases c with
  | push fd =>
    rcases queuePush_done h with ⟨-, rfl, -⟩ | ⟨-, hroom, rfl, -⟩
    · exact ⟨hq, rfl⟩
    · exact ⟨hq.store hroom fd, rfl⟩
  | pop =>
    rcases queuePop_done h with ⟨-, rfl, -⟩ | ⟨-, hsome, rfl, -⟩
    · exact ⟨hq, rfl⟩
    · exact ⟨hq.advance hsome, rfl⟩
  | addActiveFd fd id =>
    obtain ⟨rfl, -, -⟩ := Outcome.done.inj h
    exact ⟨⟨hq.size_nonneg, hq.size_le, hq.front_mod, hq.rear_eq⟩, rfl⟩
  | delActiveFd id =>
    obtain ⟨rfl, -, -⟩ := Outcome.done.inj h
    exact ⟨⟨hq.size_nonneg, hq.size_le, hq.front_mod, hq.rear_eq⟩, rfl⟩
  | getActiveFd id | shutdown =>
    obtain ⟨rfl, -, -⟩ := Outcome.done.inj h
    exact ⟨hq, rfl⟩

end BareHttp
