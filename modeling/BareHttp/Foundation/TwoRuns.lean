import Mathlib.Tactic.Common

/-!
# Two runs of one program

A program that passes its state on is a function `σ → α × σ`.  It respects a relation on the
states if two runs of it from related states return the same value and end in related states:
whatever the relation leaves open has no influence on the value, nor on the rest of the state.
The rules follow the ways such a program is put together.
-/

namespace BareHttp
namespace TwoRuns

variable {σ α β : Type} {R : σ → σ → Prop}

/-- Two results are the same as far as the relation goes. -/
def Same (R : σ → σ → Prop) (x y : α × σ) : Prop := x.1 = y.1 ∧ R x.2 y.2

/-- **Two runs from related states give the same result.** -/
def Respects (R : σ → σ → Prop) (f : σ → α × σ) : Prop := ∀ s t, R s t → Same R (f s) (f t)

theorem Respects.pure (a : α) : Respects R fun s => (a, s) := fun _ _ h => ⟨rfl, h⟩

/-- One program behind the other. -/
theorem Respects.bind {f : σ → α × σ} {g : α → σ → β × σ} (hf : Respects R f)
    (hg : ∀ a, Respects R (g a)) : Respects R fun s => g (f s).1 (f s).2 := by
  intro s t h
  obtain ⟨hvalue, hstate⟩ := hf s t h
  show Same R (g (f s).1 (f s).2) (g (f t).1 (f t).2)
  rw [← hvalue]
  exact hg (f s).1 _ _ hstate

/-- A change of the state in front. -/
theorem Respects.comp {f : σ → α × σ} {k : σ → σ} (hf : Respects R f)
    (hk : ∀ s t, R s t → R (k s) (k t)) : Respects R fun s => f (k s) :=
  fun s t h => hf _ _ (hk s t h)

/-- A choice that does not depend on the state. -/
theorem Respects.ite {f g : σ → α × σ} (c : Prop) [Decidable c] (hf : Respects R f)
    (hg : Respects R g) : Respects R fun s => if c then f s else g s := by
  intro s t h
  by_cases hc : c
  · simpa only [if_pos hc] using hf s t h
  · simpa only [if_neg hc] using hg s t h

end TwoRuns
end BareHttp
