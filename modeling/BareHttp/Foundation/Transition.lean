import Mathlib.Data.List.Basic
import Mathlib.Tactic.Common

/-!
# Labelled transition systems

A system is a step function `σ → ℓ → Option σ`: the label carries every choice
the environment makes, and `none` says the label is not enabled.  Runs are then
computable, so a concrete run is checked by evaluation, and a property of all runs
is proved by one lemma about one step.

Two induction rules are used throughout.  `run_invariant` is the plain one.
`run_invariant_along` is for a property that holds only while every step meets a
condition on the state it starts from and its label; `Along` says that a run does.

What a step shows of itself is an observation, and `trace` collects those of a run.
A system refines another when its observations are enabled there; `run_refines` is
the rule for that.
-/

namespace BareHttp
namespace Transition

variable {σ ℓ ω τ : Type} (step : σ → ℓ → Option σ)

/-- The state after a list of labels, if all of them are enabled. -/
def run : σ → List ℓ → Option σ
  | s, [] => some s
  | s, l :: ls =>
    match step s l with
    | some s' => run s' ls
    | none => none

/-- Every step of the run meets `P`, read at the state it starts from. -/
def Along (P : σ → ℓ → Prop) : σ → List ℓ → Prop
  | _, [] => True
  | s, l :: ls => P s l ∧ ∀ s', step s l = some s' → Along P s' ls

/-- What the steps of a run show. -/
def trace (obs : σ → ℓ → Option ω) : σ → List ℓ → List ω
  | _, [] => []
  | s, l :: ls =>
    (obs s l).toList ++
      match step s l with
      | some s' => trace obs s' ls
      | none => []

variable {step}

@[simp] theorem run_nil (s : σ) : run step s [] = some s := rfl

theorem run_cons {s s' : σ} {l : ℓ} (h : step s l = some s') (ls : List ℓ) :
    run step s (l :: ls) = run step s' ls := by
  simp only [run, h]

theorem run_one {s s' : σ} {l : ℓ} (h : step s l = some s') : run step s [l] = some s' :=
  run_cons h []

theorem run_cons_eq_some {s t : σ} {l : ℓ} {ls : List ℓ} (h : run step s (l :: ls) = some t) :
    ∃ s', step s l = some s' ∧ run step s' ls = some t := by
  cases hs : step s l with
  | none => simp only [run, hs, reduceCtorEq] at h
  | some s' => exact ⟨s', rfl, by rwa [run_cons hs] at h⟩

theorem run_append {s u : σ} {ls : List ℓ} (h : run step s ls = some u) (ms : List ℓ) :
    run step s (ls ++ ms) = run step u ms := by
  induction ls generalizing s with
  | nil => rw [List.nil_append, Option.some.inj h]
  | cons l ls ih =>
    obtain ⟨s', hs, hrest⟩ := run_cons_eq_some h
    rw [List.cons_append, run_cons hs]
    exact ih hrest

/-- **The invariant rule.** -/
theorem run_invariant {Inv : σ → Prop}
    (hstep : ∀ s l s', Inv s → step s l = some s' → Inv s') {s t : σ} {ls : List ℓ}
    (hs : Inv s) (h : run step s ls = some t) : Inv t := by
  induction ls generalizing s with
  | nil => rwa [← Option.some.inj h]
  | cons l ls ih =>
    obtain ⟨s', hl, hrest⟩ := run_cons_eq_some h
    exact ih (hstep s l s' hs hl) hrest

/-- **The invariant rule along a guarded run.** -/
theorem run_invariant_along {Inv : σ → Prop} {P : σ → ℓ → Prop}
    (hstep : ∀ s l s', Inv s → P s l → step s l = some s' → Inv s') {s t : σ} {ls : List ℓ}
    (hs : Inv s) (hal : Along step P s ls) (h : run step s ls = some t) : Inv t := by
  induction ls generalizing s with
  | nil => rwa [← Option.some.inj h]
  | cons l ls ih =>
    obtain ⟨s', hl, hrest⟩ := run_cons_eq_some h
    exact ih (hstep s l s' hs hal.1 hl) (hal.2 s' hl) hrest

/-- The steps that a run takes under an invariant meet what one step under it meets. -/
theorem along_of_run {Inv : σ → Prop} {P : σ → ℓ → Prop}
    (hstep : ∀ s l s', Inv s → step s l = some s' → P s l ∧ Inv s') {s t : σ} {ls : List ℓ}
    (hs : Inv s) (h : run step s ls = some t) : Along step P s ls := by
  induction ls generalizing s with
  | nil => exact trivial
  | cons l ls ih =>
    obtain ⟨s', hl, hrest⟩ := run_cons_eq_some h
    refine ⟨(hstep s l s' hs hl).1, fun s'' hl' => ?_⟩
    obtain rfl : s' = s'' := Option.some.inj (hl.symm.trans hl')
    exact ih (hstep s l s' hs hl).2 hrest

/-- Whether a run meets a decidable condition is found by running it. -/
instance Along.decidable {P : σ → ℓ → Prop} [∀ s l, Decidable (P s l)] :
    (s : σ) → (ls : List ℓ) → Decidable (Along step P s ls)
  | _, [] => .isTrue trivial
  | s, l :: ls =>
    match h : step s l with
    | some s' =>
      have := Along.decidable (P := P) s' ls
      decidable_of_iff (P s l ∧ Along step P s' ls)
        ⟨fun hp => ⟨hp.1, fun t ht => Option.some.inj (h.symm.trans ht) ▸ hp.2⟩,
          fun hp => ⟨hp.1, hp.2 s' h⟩⟩
    | none =>
      decidable_of_iff (P s l) ⟨fun hp => ⟨hp, fun t ht => by simp [h] at ht⟩, fun hp => hp.1⟩

theorem Along.of_append {P : σ → ℓ → Prop} {s : σ} {ls ms : List ℓ}
    (h : Along step P s (ls ++ ms)) : Along step P s ls := by
  induction ls generalizing s with
  | nil => exact trivial
  | cons l ls ih => exact ⟨h.1, fun s' hs => ih (h.2 s' hs)⟩

/-- A condition on the labels alone. -/
theorem Along.of_forall {P : ℓ → Prop} {s : σ} {ls : List ℓ} (h : ∀ l ∈ ls, P l) :
    Along step (fun _ l => P l) s ls := by
  induction ls generalizing s with
  | nil => exact trivial
  | cons l ls ih =>
    exact ⟨h l List.mem_cons_self, fun s' _ => ih fun m hm => h m (List.mem_cons_of_mem l hm)⟩

/-- A property of every state a run passes through. -/
def Throughout (step : σ → ℓ → Option σ) (Inv : σ → Prop) (s : σ) (ls : List ℓ) : Prop :=
  ∀ ms ns t, ls = ms ++ ns → run step s ms = some t → Inv t

theorem Throughout.behind {Inv : σ → Prop} {s u : σ} {ms ns : List ℓ}
    (h : Throughout step Inv s (ms ++ ns)) (hu : run step s ms = some u) :
    Throughout step Inv u ns := by
  rintro ps qs t rfl ht
  exact h (ms ++ ps) qs t (List.append_assoc ms ps qs).symm (by rw [run_append hu, ht])

theorem Throughout.of_append {Inv : σ → Prop} {s : σ} {ms ns : List ℓ}
    (h : Throughout step Inv s (ms ++ ns)) : Throughout step Inv s ms := by
  rintro ps qs t rfl ht
  exact h ps (qs ++ ns) t (List.append_assoc ps qs ns) ht

/-- **A guard that is exactly what the invariant needs.**  If a guarded step keeps
the invariant and an unguarded one destroys it, a run keeps the invariant
throughout exactly when all its steps are guarded. -/
theorem throughout_iff_along {Inv : σ → Prop} {P : σ → ℓ → Prop}
    (hkeep : ∀ s l s', Inv s → P s l → step s l = some s' → Inv s')
    (hlose : ∀ s l s', Inv s → ¬ P s l → step s l = some s' → ¬ Inv s') {s t : σ}
    {ls : List ℓ} (hs : Inv s) (h : run step s ls = some t) :
    Throughout step Inv s ls ↔ Along step P s ls := by
  constructor
  · intro hth
    induction ls generalizing s with
    | nil => exact trivial
    | cons l ls ih =>
      obtain ⟨s', hl, hrest⟩ := run_cons_eq_some h
      have hs' : Inv s' := hth [l] ls s' rfl (by rw [run_cons hl]; rfl)
      have hP : P s l := by
        by_contra hn
        exact hlose s l s' hs hn hl hs'
      refine ⟨hP, fun s'' hl' => ?_⟩
      obtain rfl : s' = s'' := Option.some.inj (hl.symm.trans hl')
      refine ih hs' hrest ?_
      intro ms ns u hsplit hu
      exact hth (l :: ms) ns u (by rw [hsplit, List.cons_append]) (by rw [run_cons hl, hu])
  · intro hal ms ns u hsplit hu
    subst hsplit
    exact run_invariant_along hkeep hs hal.of_append hu

/-- The same under a property `J` of all reachable states. -/
theorem throughout_iff_along_of_invariant {J Inv : σ → Prop} {P : σ → ℓ → Prop}
    (hJ : ∀ s l s', J s → step s l = some s' → J s')
    (hkeep : ∀ s l s', J s → Inv s → P s l → step s l = some s' → Inv s')
    (hlose : ∀ s l s', J s → Inv s → ¬ P s l → step s l = some s' → ¬ Inv s') {s t : σ}
    {ls : List ℓ} (hs : J s) (hinv : Inv s) (h : run step s ls = some t) :
    Throughout step Inv s ls ↔ Along step P s ls := by
  have hboth : Throughout step Inv s ls ↔ Throughout step (fun s => J s ∧ Inv s) s ls :=
    ⟨fun hth ms ns u hsplit hu => ⟨run_invariant hJ hs hu, hth ms ns u hsplit hu⟩,
      fun hth ms ns u hsplit hu => (hth ms ns u hsplit hu).2⟩
  rw [hboth]
  refine throughout_iff_along ?_ ?_ ⟨hs, hinv⟩ h
  · rintro s l s' ⟨hj, hi⟩ hP hl
    exact ⟨hJ s l s' hj hl, hkeep s l s' hj hi hP hl⟩
  · rintro s l s' ⟨hj, hi⟩ hP hl ⟨-, hi'⟩
    exact hlose s l s' hj hi hP hl hi'

/-- **A property that is lost for good.**  If a step keeps it exactly when it meets a
condition, and never brings it back, a run ends with it exactly when it began with it and
all steps met the condition. -/
theorem run_iff_along {J Q : σ → Prop} {P : σ → ℓ → Prop}
    (hJ : ∀ s l s', J s → step s l = some s' → J s')
    (hiff : ∀ s l s', J s → step s l = some s' → (Q s' ↔ Q s ∧ P s l)) {s t : σ} {ls : List ℓ}
    (hs : J s) (h : run step s ls = some t) : Q t ↔ Q s ∧ Along step P s ls := by
  induction ls generalizing s with
  | nil => simp [Option.some.inj h, Along]
  | cons l ls ih =>
    obtain ⟨s', hl, hrest⟩ := run_cons_eq_some h
    rw [ih (hJ s l s' hs hl) hrest, hiff s l s' hs hl, and_assoc]
    refine and_congr_right fun _ => and_congr_right fun _ => ?_
    exact ⟨fun hal s'' hl' => Option.some.inj (hl.symm.trans hl') ▸ hal, fun hal => hal s' hl⟩

/-- Two conditions that agree on the steps of a run. -/
theorem Along.congr_of_run {J : σ → Prop} {P Q : σ → ℓ → Prop}
    (hJ : ∀ s l s', J s → step s l = some s' → J s') {s t : σ} {ls : List ℓ}
    (hiff : ∀ s, ∀ l ∈ ls, ∀ s', J s → step s l = some s' → (P s l ↔ Q s l)) (hs : J s)
    (h : run step s ls = some t) : Along step P s ls ↔ Along step Q s ls := by
  induction ls generalizing s with
  | nil => exact Iff.rfl
  | cons l ls ih =>
    obtain ⟨s', hl, hrest⟩ := run_cons_eq_some h
    have hrest' := ih (fun s m hm => hiff s m (List.mem_cons_of_mem l hm)) (hJ s l s' hs hl) hrest
    have honly : ∀ R : σ → ℓ → Prop,
        (∀ s'', step s l = some s'' → Along step R s'' ls) ↔ Along step R s' ls :=
      fun R => ⟨fun hal => hal s' hl, fun hal s'' hl' => Option.some.inj (hl.symm.trans hl') ▸ hal⟩
    simp only [Along, honly, hrest', hiff s l List.mem_cons_self s' hs hl]

/-- A property that a step can only destroy holds at the start if it holds at the end. -/
theorem run_backward {Q : σ → Prop} (hback : ∀ s l s', step s l = some s' → Q s' → Q s)
    {s t : σ} {ls : List ℓ} (h : run step s ls = some t) (ht : Q t) : Q s := by
  induction ls generalizing s with
  | nil => rwa [Option.some.inj h]
  | cons l ls ih =>
    obtain ⟨s', hl, hrest⟩ := run_cons_eq_some h
    exact hback s l s' hl (ih hrest)

/-- **The invariant rule with a history**: what every step keeps of a state and of what was shown up
to there holds of the last state and of the whole trace. -/
theorem run_invariant_trace {obs : σ → ℓ → Option ω} {R : σ → List ω → Prop}
    (hstep : ∀ s l s' h, R s h → step s l = some s' → R s' (h ++ (obs s l).toList)) {s t : σ}
    {h : List ω} {ls : List ℓ} (hs : R s h) (hrun : run step s ls = some t) :
    R t (h ++ trace step obs s ls) := by
  induction ls generalizing s h with
  | nil => rwa [← Option.some.inj hrun, trace, List.append_nil]
  | cons l ls ih =>
    obtain ⟨s', hl, hrest⟩ := run_cons_eq_some hrun
    simp only [trace, hl]
    rw [← List.append_assoc]
    exact ih (hstep s l s' h hs hl) hrest

/-- **The refinement rule.**  If every step taken under an invariant is matched by what
it shows, a run is matched by its trace.  `Q` restricts the runs to those that end
without having done what destroys it. -/
theorem run_refines {astep : τ → ω → Option τ} {obs : σ → ℓ → Option ω} {abs : σ → τ}
    {Inv Q : σ → Prop} (hinv : ∀ s l s', Inv s → step s l = some s' → Inv s')
    (hback : ∀ s l s', step s l = some s' → Q s' → Q s)
    (hsim : ∀ s l s', Inv s → Q s → step s l = some s' →
      run astep (abs s) (obs s l).toList = some (abs s')) {s t : σ} {ls : List ℓ}
    (hs : Inv s) (h : run step s ls = some t) (ht : Q t) :
    run astep (abs s) (trace step obs s ls) = some (abs t) := by
  induction ls generalizing s with
  | nil => rw [Option.some.inj h]; rfl
  | cons l ls ih =>
    have hQ : Q s := run_backward hback h ht
    obtain ⟨s', hl, hrest⟩ := run_cons_eq_some h
    simp only [trace, hl]
    rw [run_append (hsim s l s' hs hQ hl)]
    exact ih (hinv s l s' hs hl) hrest

end Transition
end BareHttp
