import Mathlib.Data.List.Basic
import Mathlib.Tactic.Common

/-!
# Transducers that can stop

A transducer reads its input symbol by symbol.  With each symbol it goes on, with some output, or
it stops behind the symbol, or it rejects it.  Its state is all it remembers, so an input may
arrive in pieces: `run_append` says that a run over two pieces is the run over the first and then,
if that did not end, over the second.

`feed` is the loop of a caller who hands on pieces one by one, and who may refuse to go on behind
one of them, by how much was read and written so far.  Without a refusal it is the run over the
whole input (`feed_eq_run`), and a refusal depends on what was read up to there, not on how it was
cut (`feed_eq_rejected`).
-/

namespace BareHttp
namespace Transducer

variable {σ ι ο : Type}

/-- What is done with one symbol. -/
inductive Reply (σ ο : Type) where
  | next (s : σ) (out : List ο)
  | halt
  | reject
  deriving DecidableEq

/-- What a run over an input comes to: it wants more, it has stopped in front of `rest`, or the
input is rejected. -/
inductive Outcome (σ ι ο : Type) where
  | more (s : σ) (out : List ο)
  | done (out : List ο) (rest : List ι)
  | rejected (out : List ο)
  deriving DecidableEq

namespace Outcome

/-- The same outcome behind an earlier output. -/
def emit (o : List ο) : Outcome σ ι ο → Outcome σ ι ο
  | more s out => more s (o ++ out)
  | done out rest => done (o ++ out) rest
  | rejected out => rejected (o ++ out)

@[simp] theorem emit_more (o : List ο) (s : σ) (out : List ο) :
    (more s out : Outcome σ ι ο).emit o = more s (o ++ out) := rfl

@[simp] theorem emit_done (o out : List ο) (rest : List ι) :
    (done out rest : Outcome σ ι ο).emit o = done (o ++ out) rest := rfl

@[simp] theorem emit_rejected (o out : List ο) :
    (rejected out : Outcome σ ι ο).emit o = rejected (o ++ out) := rfl

@[simp] theorem emit_nil (r : Outcome σ ι ο) : r.emit [] = r := by
  cases r <;> rfl

theorem emit_emit (o o' : List ο) (r : Outcome σ ι ο) :
    (r.emit o').emit o = r.emit (o ++ o') := by
  cases r <;> simp

theorem emit_eq_done {o out : List ο} {rest : List ι} {r : Outcome σ ι ο}
    (h : r.emit o = done out rest) : ∃ out', out = o ++ out' ∧ r = done out' rest := by
  cases r with
  | more s out' => exact absurd h (by simp)
  | done out' rest' =>
    obtain ⟨rfl, rfl⟩ := done.inj h
    exact ⟨out', rfl, rfl⟩
  | rejected out' => exact absurd h (by simp)

end Outcome

/-- The same reply, with another kind of state. -/
def Reply.map {τ : Type} (f : σ → τ) : Reply σ ο → Reply τ ο
  | .next s out => .next (f s) out
  | .halt => .halt
  | .reject => .reject

@[simp] theorem Reply.map_next {τ : Type} (f : σ → τ) (s : σ) (out : List ο) :
    (Reply.next s out).map f = .next (f s) out := rfl

@[simp] theorem Reply.map_halt {τ : Type} (f : σ → τ) :
    (Reply.halt : Reply σ ο).map f = .halt := rfl

@[simp] theorem Reply.map_reject {τ : Type} (f : σ → τ) :
    (Reply.reject : Reply σ ο).map f = .reject := rfl

/-- The same outcome, with another kind of state. -/
def Outcome.map {τ : Type} (f : σ → τ) : Outcome σ ι ο → Outcome τ ι ο
  | .more s out => .more (f s) out
  | .done out rest => .done out rest
  | .rejected out => .rejected out

theorem Outcome.map_emit {τ : Type} (f : σ → τ) (o : List ο) (r : Outcome σ ι ο) :
    (r.emit o).map f = (r.map f).emit o := by
  cases r <;> rfl

/-- The run over an input. -/
def run (step : σ → ι → Reply σ ο) : σ → List ι → Outcome σ ι ο
  | s, [] => .more s []
  | s, c :: cs =>
    match step s c with
    | .next s' out => (run step s' cs).emit out
    | .halt => .done [] cs
    | .reject => .rejected []

/-- The outcome of a run, with more input behind it. -/
def Outcome.resume (step : σ → ι → Reply σ ο) (cs : List ι) : Outcome σ ι ο → Outcome σ ι ο
  | .more s out => (run step s cs).emit out
  | .done out rest => .done out (rest ++ cs)
  | .rejected out => .rejected out

section Run

variable {step : σ → ι → Reply σ ο} {s s' : σ} {c : ι} {cs : List ι} {out : List ο}

theorem run_cons_next (h : step s c = .next s' out) :
    run step s (c :: cs) = (run step s' cs).emit out := by
  simp only [run, h]

theorem run_cons_halt (h : step s c = .halt) : run step s (c :: cs) = .done [] cs := by
  simp only [run, h]

theorem run_cons_reject (h : step s c = .reject) : run step s (c :: cs) = .rejected [] := by
  simp only [run, h]

theorem Outcome.resume_emit (o : List ο) (r : Outcome σ ι ο) :
    (r.emit o).resume step cs = (r.resume step cs).emit o := by
  cases r with
  | more s out => simp only [emit_more, resume, emit_emit]
  | done out rest => rfl
  | rejected out => rfl

/-- **The input may come in pieces.** -/
theorem run_append (s : σ) (a b : List ι) :
    run step s (a ++ b) = (run step s a).resume step b := by
  induction a generalizing s with
  | nil => simp only [List.nil_append, run, Outcome.resume, Outcome.emit_nil]
  | cons c a ih =>
    rw [List.cons_append]
    cases hstep : step s c with
    | next s' out => rw [run_cons_next hstep, run_cons_next hstep, Outcome.resume_emit, ih]
    | halt => rw [run_cons_halt hstep, run_cons_halt hstep, Outcome.resume]
    | reject => rw [run_cons_reject hstep, run_cons_reject hstep, Outcome.resume]

/-- **A part of the state.**  If the steps on a part are those on the whole, so are the runs. -/
theorem run_map {τ : Type} {step' : τ → ι → Reply τ ο} (f : σ → τ)
    (h : ∀ s c, step' (f s) c = (step s c).map f) (s : σ) (input : List ι) :
    run step' (f s) input = (run step s input).map f := by
  induction input generalizing s with
  | nil => rfl
  | cons c cs ih =>
    simp only [run, h]
    cases step s c with
    | next s' out => simp only [Reply.map, ih, Outcome.map_emit]
    | halt => rfl
    | reject => rfl

theorem run_append_of_more {a : List ι} (h : run step s a = .more s' out) (b : List ι) :
    run step s (a ++ b) = (run step s' b).emit out := by
  rw [run_append, h, Outcome.resume]

end Run

/-! ## A caller with pieces -/

/-- The pieces are handed on one by one.  Behind each piece the caller may refuse to go on, by the
number of symbols that were read and of those that were written. -/
def feed (step : σ → ι → Reply σ ο) (refuse : ℕ → ℕ → Bool) :
    ℕ → ℕ → σ → List (List ι) → Outcome σ ι ο
  | _, _, s, [] => .more s []
  | read, written, s, p :: ps =>
    match run step s p with
    | .more s' out =>
      if refuse (read + p.length) (written + out.length) then .rejected out
      else (feed step refuse (read + p.length) (written + out.length) s' ps).emit out
    | .done out rest => .done out (rest ++ ps.flatten)
    | .rejected out => .rejected out

/-- The caller refuses behind the first `k` pieces. -/
def RefusedAt (step : σ → ι → Reply σ ο) (refuse : ℕ → ℕ → Bool) (read written : ℕ) (s : σ)
    (ps : List (List ι)) (k : ℕ) (out : List ο) : Prop :=
  ∃ s', run step s (ps.take k).flatten = .more s' out ∧
    refuse (read + (ps.take k).flatten.length) (written + out.length) = true

section Feed

variable {step : σ → ι → Reply σ ο} {refuse : ℕ → ℕ → Bool}

/-- Behind a first piece that leaves the run open, the caller is at the beginning again. -/
theorem refusedAt_cons {read written : ℕ} {s s' : σ} {p : List ι} {ps : List (List ι)} {k : ℕ}
    {o out : List ο} (h : run step s p = .more s' o) :
    RefusedAt step refuse read written s (p :: ps) (k + 1) (o ++ out) ↔
      RefusedAt step refuse (read + p.length) (written + o.length) s' ps k out := by
  have hlen : read + (p ++ (ps.take k).flatten).length =
      read + p.length + (ps.take k).flatten.length := by
    rw [List.length_append, Nat.add_assoc]
  have hout : written + (o ++ out).length = written + o.length + out.length := by
    rw [List.length_append, Nat.add_assoc]
  simp only [RefusedAt, List.take_succ_cons, List.flatten_cons, hlen, hout,
    run_append_of_more h]
  refine exists_congr fun t => and_congr_left fun _ => ?_
  cases run step s' (ps.take k).flatten with
  | more u o' =>
    simp only [Outcome.emit_more, Outcome.more.injEq, List.append_cancel_left_eq]
  | done o' rest => simp
  | rejected o' => simp

/-- **A caller who does not refuse** gets what the run over the whole input gives. -/
theorem feed_eq_run {read written : ℕ} {s : σ} {ps : List (List ι)}
    (h : ∀ k out, ¬ RefusedAt step refuse read written s ps (k + 1) out) :
    feed step refuse read written s ps = run step s ps.flatten := by
  induction ps generalizing read written s with
  | nil => rfl
  | cons p ps ih =>
    rw [List.flatten_cons]
    cases hrun : run step s p with
    | more s' out =>
      have hfirst : refuse (read + p.length) (written + out.length) = false := by
        have hnot := h 0 out
        rw [← List.append_nil out, refusedAt_cons hrun] at hnot
        simpa [RefusedAt, run] using hnot
      simp only [feed, hrun, hfirst, Bool.false_eq_true, if_false]
      rw [run_append_of_more hrun, ih fun k o => ?_]
      rw [← refusedAt_cons hrun]
      exact h (k + 1) (out ++ o)
    | done out rest => simp only [feed, hrun, run_append, Outcome.resume]
    | rejected out => simp only [feed, hrun, run_append, Outcome.resume]

/-- **A caller who refuses** does so at the first piece behind which the run is open and the
numbers are such; the outcome has what was written up to there. -/
theorem feed_eq_rejected {read written : ℕ} {s : σ} {ps : List (List ι)} {k : ℕ} {out : List ο}
    (hk : k < ps.length) (h : RefusedAt step refuse read written s ps (k + 1) out)
    (hbefore : ∀ j < k, ∀ o, ¬ RefusedAt step refuse read written s ps (j + 1) o) :
    feed step refuse read written s ps = .rejected out := by
  induction ps generalizing read written s k out with
  | nil => exact absurd hk (by simp)
  | cons p ps ih =>
    -- the run is open behind the first piece, since it is open behind the first `k + 1`
    obtain ⟨s', o, hrun, o', rfl⟩ : ∃ s' o, run step s p = .more s' o ∧ ∃ o', o ++ o' = out := by
      obtain ⟨t, ht, -⟩ := h
      rw [List.take_succ_cons, List.flatten_cons, run_append] at ht
      cases hrun : run step s p with
      | more s' o =>
        rw [hrun, Outcome.resume] at ht
        cases hrest : run step s' (ps.take k).flatten with
        | more u o' =>
          rw [hrest, Outcome.emit_more] at ht
          exact ⟨s', o, rfl, o', (Outcome.more.inj ht).2⟩
        | done o' rest => exact absurd ht (by simp [hrest])
        | rejected o' => exact absurd ht (by simp [hrest])
      | done o rest => exact absurd ht (by simp [hrun, Outcome.resume])
      | rejected o => exact absurd ht (by simp [hrun, Outcome.resume])
    rw [refusedAt_cons hrun] at h
    simp only [feed, hrun]
    cases k with
    | zero =>
      obtain ⟨t, ht, hrefuse⟩ := h
      simp only [List.take_zero, List.flatten_nil, run, Outcome.more.injEq] at ht hrefuse
      obtain ⟨rfl, rfl⟩ := ht
      rw [if_pos (by simpa using hrefuse), List.append_nil]
    | succ k =>
      have hfirst : refuse (read + p.length) (written + o.length) = false := by
        have hnot := hbefore 0 (Nat.succ_pos k) (o ++ [])
        rw [refusedAt_cons hrun] at hnot
        simpa [RefusedAt, run] using hnot
      rw [hfirst, if_neg (by simp), ih (by simpa using hk) h fun j hj o'' => ?_,
        Outcome.emit_rejected]
      rw [← refusedAt_cons hrun]
      exact hbefore (j + 1) (Nat.succ_lt_succ hj) (o ++ o'')

end Feed

end Transducer
end BareHttp
