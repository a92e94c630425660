import Mathlib.Tactic.Common

/-!
# Loops with a `break`

A `while` loop of the source is a test and a body that ends in another round or in a `break`.
`Ends` says that the loop, started in one state, ends in another; it has no bound on the number
of rounds, so that a loop ends at all is a statement about it.

There are three rules.  A loop ends in one way only (`Ends.unique`); an invariant together with
a number that each round makes smaller gives the end and what holds there (`exists_ends`); and a
loop that does what another one does, on a part of its state, ends in that part (`Ends.map`).
-/

namespace BareHttp
namespace While

/-- What the body of a loop ends in. -/
inductive Round (σ : Type) where
  | next (s : σ)
  | stop (s : σ)
  deriving DecidableEq

/-- The same end, on another kind of state. -/
def Round.map {σ τ : Type} (f : σ → τ) : Round σ → Round τ
  | .next s => .next (f s)
  | .stop s => .stop (f s)

/-- A loop: its test and its body. -/
structure Loop (σ : Type) where
  test : σ → Bool
  body : σ → Round σ

variable {σ : Type} {L : Loop σ}

/-- The loop, started in a state, ends in another. -/
inductive Ends (L : Loop σ) : σ → σ → Prop
  | leave {s : σ} (htest : L.test s = false) : Ends L s s
  | stop {s t : σ} (htest : L.test s = true) (hbody : L.body s = .stop t) : Ends L s t
  | next {s s' t : σ} (htest : L.test s = true) (hbody : L.body s = .next s')
      (hrest : Ends L s' t) : Ends L s t

/-- **A loop ends in one way only.** -/
theorem Ends.unique {s t t' : σ} (h : Ends L s t) (h' : Ends L s t') : t = t' := by
  induction h with
  | leave htest =>
    cases h' with
    | leave => rfl
    | stop htest' | next htest' => exact absurd htest' (by simp [htest])
  | stop htest hbody =>
    cases h' with
    | leave htest' => exact absurd htest' (by simp [htest])
    | stop _ hbody' => exact Round.stop.inj (hbody.symm.trans hbody')
    | next _ hbody' => exact absurd (hbody.symm.trans hbody') (by simp)
  | next htest hbody _ ih =>
    cases h' with
    | leave htest' => exact absurd htest' (by simp [htest])
    | stop _ hbody' => exact absurd (hbody.symm.trans hbody') (by simp)
    | next _ hbody' hrest' =>
      obtain rfl := Round.next.inj (hbody.symm.trans hbody')
      exact ih hrest'

/-- The end of a loop, once one is known. -/
theorem Ends.iff_eq {s t : σ} (h : Ends L s t) (u : σ) : Ends L s u ↔ u = t :=
  ⟨fun h' => h'.unique h, fun heq => heq ▸ h⟩

/-- **Invariant and variant.**  Each round that is not the last keeps `I` and makes the variant
smaller; then the loop ends, and what holds there is what the last round or the failing test
gives. -/
theorem exists_ends (I Q : σ → Prop) (variant : σ → ℕ)
    (hleave : ∀ s, I s → L.test s = false → Q s)
    (hround : ∀ s, I s → L.test s = true →
      (∃ t, L.body s = .stop t ∧ Q t) ∨
        ∃ s', L.body s = .next s' ∧ I s' ∧ variant s' < variant s)
    {s : σ} (hs : I s) : ∃ t, Ends L s t ∧ Q t := by
  induction hn : variant s using Nat.strongRecOn generalizing s with
  | ind n ih =>
    cases htest : L.test s with
    | false => exact ⟨s, .leave htest, hleave s hs htest⟩
    | true =>
      rcases hround s hs htest with ⟨t, hbody, hq⟩ | ⟨s', hbody, hs', hlt⟩
      · exact ⟨t, .stop htest hbody, hq⟩
      · obtain ⟨t, hends, hq⟩ := ih _ (hn ▸ hlt) hs' rfl
        exact ⟨t, .next htest hbody hends, hq⟩

/-- **A part of the state.**  If the test and the body of `M` on a part are those of `L`, then
`M` ends in the part of what `L` ends in. -/
theorem Ends.map {τ : Type} {M : Loop τ} (f : σ → τ) (htest : ∀ s, M.test (f s) = L.test s)
    (hbody : ∀ s, M.body (f s) = (L.body s).map f) {s t : σ} (h : Ends L s t) :
    Ends M (f s) (f t) := by
  induction h with
  | @leave s h => exact .leave (by rw [htest, h])
  | @stop s t h hb => exact .stop (by rw [htest, h]) (by rw [hbody, hb]; rfl)
  | @next s s' t h hb _ ih => exact .next (by rw [htest, h]) (by rw [hbody, hb]; rfl) ih

end While
end BareHttp
