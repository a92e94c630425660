import Mathlib.Logic.Function.Basic
import BareHttp.Foundation.Transition

/-!
# Sections behind a mutex

Threads that share a store and a mutex.  A call waits for the mutex, takes the steps of its
section one at a time, and gives the mutex up behind the last one; the other threads may take
theirs in between, and each step may turn out in several ways.

Nothing of that is seen in the store.  Whatever the order of the steps, the sections that were
left so far have run one behind the other, each alone, in the order in which they were left, and
in front of the store there is only what the holder of the mutex has done (`serial_of_run`).  No
call is lost or made twice, and those of one thread keep their order (`calls_of_run`).  As long as
a call has not returned there is a step to take (`exists_step_of_run`), so that a section which
comes to its end on every path leaves nobody waiting.
-/

namespace BareHttp
namespace Mutex

open Transition

variable {τ σ κ π ω ρ : Type}

/-- A section: where a call begins, and what a step does, which turns out as `ω` says.  The last
step gives the value of the call. -/
structure Body (σ κ π ω ρ : Type) where
  entry : κ → π
  act : π → σ → ω → σ × (π ⊕ ρ)

namespace Body

variable (b : Body σ κ π ω ρ)

/-- The steps of a section that is alone, without the last one. -/
inductive Steps (p : π) (x : σ) : π → σ → Prop where
  | refl : Steps p x p x
  | act {q q' : π} {y z : σ} {w : ω} (h : Steps p x q y) (hact : b.act q y w = (z, .inl q')) :
    Steps p x q' z

/-- A section that is alone, from its entry to its value. -/
def Executes (c : κ) (x : σ) (r : ρ) (y : σ) : Prop :=
  ∃ p z w, b.Steps (b.entry c) x p z ∧ b.act p z w = (y, .inr r)

/-- Calls that run one behind the other, with the threads they are from and their values. -/
inductive Serial (x : σ) : List (τ × κ × ρ) → σ → Prop where
  | nil : Serial x [] x
  | snoc {h : List (τ × κ × ρ)} {y z : σ} {t : τ} {c : κ} {r : ρ} (hh : Serial x h y)
    (hc : b.Executes c y r z) : Serial x (h ++ [(t, c, r)]) z

end Body

/-- Where a thread is. -/
inductive Phase (κ π ρ : Type) where
  | outside
  | waiting (c : κ)
  | inside (c : κ) (p : π)
  | leaving (c : κ) (r : ρ)

namespace Phase

/-- The call a thread is in. -/
def call : Phase κ π ρ → Option κ
  | .outside => none
  | .waiting c => some c
  | .inside c _ => some c
  | .leaving c _ => some c

/-- The thread is between taking the mutex and giving it up. -/
def Behind : Phase κ π ρ → Prop
  | .outside => False
  | .waiting _ => False
  | .inside _ _ => True
  | .leaving _ _ => True

end Phase

/-- The store, the mutex and the threads. -/
structure State (τ σ κ π ρ : Type) where
  store : σ
  owner : Option τ
  phase : τ → Phase κ π ρ

/-- All threads are outside. -/
def State.initial (x : σ) : State τ σ κ π ρ := ⟨x, none, fun _ => .outside⟩

/-- What can happen next. -/
inductive Label (τ κ ω : Type) where
  | call (t : τ) (c : κ)
  | lock (t : τ)
  | act (t : τ) (w : ω)
  | unlock (t : τ)

/-- What is seen of a step: a thread begins a call or is done with it. -/
inductive Event (τ κ ρ : Type) where
  | called (t : τ) (c : κ)
  | returned (t : τ) (c : κ) (r : ρ)

/-- The calls that are done, in order. -/
def returns : List (Event τ κ ρ) → List (τ × κ × ρ) :=
  List.filterMap fun
    | .called _ _ => none
    | .returned t c r => some (t, c, r)

/-! ## One section at a time -/

variable {b : Body σ κ π ω ρ}

/-- The store is what the call has made of `m` so far. -/
def Phase.Reached (b : Body σ κ π ω ρ) (m x : σ) : Phase κ π ρ → Prop
  | .outside => False
  | .waiting _ => False
  | .inside c p => b.Steps (b.entry c) m p x
  | .leaving c r => b.Executes c m r x

/-- What is behind the mutex: `m` is the store the holder has found, and it is the store while
there is no holder. -/
structure Held (b : Body σ κ π ω ρ) (m : σ) (s : State τ σ κ π ρ) : Prop where
  free : s.owner = none → s.store = m
  taken : ∀ t, s.owner = some t → (s.phase t).Reached b m s.store
  only : ∀ t, (s.phase t).Behind → s.owner = some t

theorem held_initial (b : Body σ κ π ω ρ) (x : σ) :
    Held b x (State.initial x : State τ σ κ π ρ) :=
  ⟨fun _ => rfl, fun _ h => absurd h (by simp [State.initial]), fun _ h => h.elim⟩

namespace Held

variable {m : σ} {s : State τ σ κ π ρ} {t : τ}

/-- A thread behind the mutex holds it. -/
theorem reached (h : Held b m s) {p : Phase κ π ρ} (hp : s.phase t = p) (hb : p.Behind) :
    s.owner = some t ∧ p.Reached b m s.store := by
  subst hp
  exact ⟨h.only t hb, h.taken t (h.only t hb)⟩

variable [DecidableEq τ]

/-- The mutex is given up: what the holder has done stays. -/
theorem unlock (h : Held b m s) (howner : s.owner = some t) :
    Held b s.store ⟨s.store, none, Function.update s.phase t .outside⟩ := by
  refine ⟨fun _ => rfl, fun _ ho => absurd ho (by simp), fun u hu => ?_⟩
  by_cases hut : u = t
  · subst hut
    simp only [Function.update_self] at hu
    exact hu.elim
  · simp only [Function.update_of_ne hut] at hu
    exact absurd (Option.some.inj ((h.only u hu).symm.trans howner)) hut

/-- The mutex is taken. -/
theorem lock (h : Held b m s) (howner : s.owner = none) (c : κ) :
    Held b m ⟨s.store, some t, Function.update s.phase t (.inside c (b.entry c))⟩ := by
  refine ⟨fun ho => absurd ho (by simp), fun u hu => ?_, fun u hu => ?_⟩
  · obtain rfl : t = u := Option.some.inj hu
    simp only [Function.update_self]
    show b.Steps (b.entry c) m (b.entry c) s.store
    rw [h.free howner]
    exact .refl
  · by_cases hut : u = t
    · rw [hut]
    · simp only [Function.update_of_ne hut] at hu
      exact absurd (howner.symm.trans (h.only u hu)) (by simp)

/-- A call begins. -/
theorem call (h : Held b m s) (hp : s.phase t = .outside) (c : κ) :
    Held b m { s with phase := Function.update s.phase t (.waiting c) } := by
  refine ⟨h.free, fun u hu => ?_, fun u hu => ?_⟩
  · have hreached := h.taken u hu
    have hut : u ≠ t := by
      rintro rfl
      rw [hp] at hreached
      exact hreached
    simpa only [Function.update_of_ne hut] using hreached
  · by_cases hut : u = t
    · subst hut
      simp only [Function.update_self] at hu
      exact hu.elim
    · simp only [Function.update_of_ne hut] at hu
      exact h.only u hu

/-- The holder takes a step. -/
theorem act (h : Held b m s) (howner : s.owner = some t) {x : σ} {p : Phase κ π ρ}
    (hp : p.Reached b m x) : Held b m ⟨x, s.owner, Function.update s.phase t p⟩ := by
  refine ⟨fun ho => absurd (howner.symm.trans ho) (by simp), fun u hu => ?_, fun u hu => ?_⟩
  · obtain rfl : t = u := Option.some.inj (howner.symm.trans hu)
    simpa only [Function.update_self] using hp
  · by_cases hut : u = t
    · rw [hut]
      exact howner
    · simp only [Function.update_of_ne hut] at hu
      exact h.only u hu

end Held

section Threads

variable [DecidableEq τ]

/-- The calls of one thread, in order. -/
def callsOf (t : τ) : List (Event τ κ ρ) → List κ :=
  List.filterMap fun
    | .called u c => if u = t then some c else none
    | .returned _ _ _ => none

/-- The calls of one thread that are done, in order. -/
def returnsOf (t : τ) : List (Event τ κ ρ) → List κ :=
  List.filterMap fun
    | .called _ _ => none
    | .returned u c _ => if u = t then some c else none

/-- One step of one thread. -/
def step (b : Body σ κ π ω ρ) (s : State τ σ κ π ρ) : Label τ κ ω → Option (State τ σ κ π ρ)
  | .call t c =>
    match s.phase t with
    | .outside => some { s with phase := Function.update s.phase t (.waiting c) }
    | _ => none
  | .lock t =>
    match s.phase t, s.owner with
    | .waiting c, none =>
      some { s with
        owner := some t
        phase := Function.update s.phase t (.inside c (b.entry c)) }
    | _, _ => none
  | .act t w =>
    match s.phase t with
    | .inside c p =>
      match b.act p s.store w with
      | (x, .inl q) =>
        some { s with store := x, phase := Function.update s.phase t (.inside c q) }
      | (x, .inr r) =>
        some { s with store := x, phase := Function.update s.phase t (.leaving c r) }
    | _ => none
  | .unlock t =>
    match s.phase t with
    | .leaving _ _ =>
      some { s with owner := none, phase := Function.update s.phase t .outside }
    | _ => none

/-- What a step shows. -/
def shown (s : State τ σ κ π ρ) : Label τ κ ω → Option (Event τ κ ρ)
  | .call t c => some (.called t c)
  | .unlock t =>
    match s.phase t with
    | .leaving c r => some (.returned t c r)
    | _ => none
  | _ => none

/-- Everything a step can do. -/
theorem step_cases {s s' : State τ σ κ π ρ} {l : Label τ κ ω} (h : step b s l = some s') :
    (∃ t c, l = .call t c ∧ s.phase t = .outside ∧
        s' = { s with phase := Function.update s.phase t (.waiting c) }) ∨
      (∃ t c, l = .lock t ∧ s.phase t = .waiting c ∧ s.owner = none ∧
        s' = ⟨s.store, some t, Function.update s.phase t (.inside c (b.entry c))⟩) ∨
      (∃ t c p w x q, l = .act t w ∧ s.phase t = .inside c p ∧ b.act p s.store w = (x, .inl q) ∧
        s' = ⟨x, s.owner, Function.update s.phase t (.inside c q)⟩) ∨
      (∃ t c p w x r, l = .act t w ∧ s.phase t = .inside c p ∧ b.act p s.store w = (x, .inr r) ∧
        s' = ⟨x, s.owner, Function.update s.phase t (.leaving c r)⟩) ∨
      ∃ t c r, l = .unlock t ∧ s.phase t = .leaving c r ∧
        s' = ⟨s.store, none, Function.update s.phase t .outside⟩ := by
  cases l with
  | call t c =>
    simp only [step] at h
    split at h
    · next hp => exact .inl ⟨t, c, rfl, hp, (Option.some.inj h).symm⟩
    · exact absurd h (by simp)
  | lock t =>
    simp only [step] at h
    split at h
    · next c hp ho => exact .inr (.inl ⟨t, c, rfl, hp, ho, (Option.some.inj h).symm⟩)
    · exact absurd h (by simp)
  | act t w =>
    simp only [step] at h
    split at h
    · next c p hp =>
      split at h
      · next x q ha => exact .inr (.inr (.inl ⟨t, c, p, w, x, q, rfl, hp, ha,
          (Option.some.inj h).symm⟩))
      · next x r ha => exact .inr (.inr (.inr (.inl ⟨t, c, p, w, x, r, rfl, hp, ha,
          (Option.some.inj h).symm⟩)))
    · exact absurd h (by simp)
  | unlock t =>
    simp only [step] at h
    split at h
    · next c r hp => exact .inr (.inr (.inr (.inr ⟨t, c, r, rfl, hp, (Option.some.inj h).symm⟩)))
    · exact absurd h (by simp)

/-! ## Runs -/

/-- What a run keeps: the calls that are done have run one behind the other. -/
theorem held_step {x : σ} {s s' : State τ σ κ π ρ} {l : Label τ κ ω} {h : List (Event τ κ ρ)}
    (hs : ∃ m, b.Serial x (returns h) m ∧ Held b m s) (hl : step b s l = some s') :
    ∃ m, b.Serial x (returns (h ++ (shown s l).toList)) m ∧ Held b m s' := by
  obtain ⟨m, hserial, hheld⟩ := hs
  rcases step_cases hl with ⟨t, c, rfl, hp, rfl⟩ | ⟨t, c, rfl, hp, ho, rfl⟩ |
    ⟨t, c, p, w, y, q, rfl, hp, ha, rfl⟩ | ⟨t, c, p, w, y, r, rfl, hp, ha, rfl⟩ |
    ⟨t, c, r, rfl, hp, rfl⟩
  · exact ⟨m, by simpa [shown, returns] using hserial, hheld.call hp c⟩
  · exact ⟨m, by simpa [shown] using hserial, hheld.lock ho c⟩
  · obtain ⟨howner, hsteps⟩ := hheld.reached hp trivial
    have hsteps' : b.Steps (b.entry c) m q y := hsteps.act ha
    exact ⟨m, by simpa [shown] using hserial, hheld.act howner hsteps'⟩
  · obtain ⟨howner, hsteps⟩ := hheld.reached hp trivial
    have hexec : b.Executes c m r y := ⟨p, s.store, w, hsteps, ha⟩
    exact ⟨m, by simpa [shown] using hserial, hheld.act howner hexec⟩
  · obtain ⟨howner, hexec⟩ := hheld.reached hp trivial
    refine ⟨s.store, ?_, hheld.unlock howner⟩
    have hret : returns (h ++ (shown s (.unlock t : Label τ κ ω)).toList) =
        returns h ++ [(t, c, r)] := by
      simp [shown, hp, returns]
    rw [hret]
    exact hserial.snoc hexec

/-- **Sections run one at a time.**  Whatever the order of the steps, the calls that are done have
run one behind the other, in the order they were left in. -/
theorem serial_of_run {x : σ} {s : State τ σ κ π ρ} {ls : List (Label τ κ ω)}
    (h : run (step b) (State.initial x) ls = some s) :
    ∃ m, b.Serial x (returns (trace (step b) shown (State.initial x) ls)) m ∧ Held b m s := by
  have hrun := run_invariant_trace
    (R := fun s h => ∃ m, b.Serial x (returns h) m ∧ Held b m s)
    (fun _ _ _ _ hs hl => held_step hs hl)
    (h := []) ⟨x, .nil, held_initial b x⟩ h
  rwa [List.nil_append] at hrun

/-! ## Every call once -/

/-- The calls of a thread are those that are done and the one it is in. -/
def Counted (s : State τ σ κ π ρ) (h : List (Event τ κ ρ)) : Prop :=
  ∀ t, callsOf t h = returnsOf t h ++ (s.phase t).call.toList

theorem counted_step {s s' : State τ σ κ π ρ} {l : Label τ κ ω} {h : List (Event τ κ ρ)}
    (hs : Counted s h) (hl : step b s l = some s') :
    Counted s' (h ++ (shown s l).toList) := by
  intro u
  have hu := hs u
  rcases step_cases hl with ⟨t, c, rfl, hp, rfl⟩ | ⟨t, c, rfl, hp, -, rfl⟩ |
    ⟨t, c, p, w, y, q, rfl, hp, -, rfl⟩ | ⟨t, c, p, w, y, r, rfl, hp, -, rfl⟩ |
    ⟨t, c, r, rfl, hp, rfl⟩
  all_goals
    by_cases hut : u = t
    · subst hut
      simp [shown, callsOf, returnsOf, hp, Phase.call] at hu ⊢
      exact hu
    · simp [shown, callsOf, returnsOf, hp, Function.update_of_ne hut, Ne.symm hut] at hu ⊢
      exact hu

/-- **No call is lost or made twice**, and those of one thread keep their order. -/
theorem calls_of_run {x : σ} {s : State τ σ κ π ρ} {ls : List (Label τ κ ω)}
    (h : run (step b) (State.initial x) ls = some s) (t : τ) :
    callsOf t (trace (step b) shown (State.initial x) ls) =
      returnsOf t (trace (step b) shown (State.initial x) ls) ++ (s.phase t).call.toList := by
  have hrun := run_invariant_trace (R := Counted)
    (fun _ _ _ _ hs hl => counted_step hs hl) (h := []) (fun _ => rfl) h
  rw [List.nil_append] at hrun
  exact hrun t

/-- **A call that is not done can go on**, or the holder of the mutex can. -/
theorem exists_step_of_run [Nonempty ω] {x : σ} {s : State τ σ κ π ρ} {ls : List (Label τ κ ω)}
    (h : run (step b) (State.initial x) ls = some s) {t : τ} {c : κ}
    (hcall : (s.phase t).call = some c) :
    ∃ u l, (l = .lock u ∨ (∃ w, l = .act u w) ∨ l = .unlock u) ∧
      (s.owner = none ∧ u = t ∨ s.owner = some u) ∧ (step b s l).isSome := by
  obtain ⟨m, -, hheld⟩ := serial_of_run h
  obtain ⟨w⟩ := ‹Nonempty ω›
  rcases hho : s.owner with _ | u
  · have hwaits : s.phase t = .waiting c := by
      cases hp : s.phase t with
      | outside => simp [hp, Phase.call] at hcall
      | waiting c' => simpa [hp, Phase.call] using hcall
      | inside | leaving =>
        exact absurd (hho.symm.trans (hheld.reached hp trivial).1) (by simp)
    exact ⟨t, .lock t, .inl rfl, .inl ⟨rfl, rfl⟩, by simp [step, hwaits, hho]⟩
  · have hreached := hheld.taken u hho
    cases hp : s.phase u with
    | outside | waiting =>
      rw [hp] at hreached
      exact hreached.elim
    | inside c' p =>
      refine ⟨u, .act u w, .inr (.inl ⟨w, rfl⟩), .inr rfl, ?_⟩
      simp only [step, hp]
      split <;> rfl
    | leaving c' r => exact ⟨u, .unlock u, .inr (.inr rfl), .inr rfl, by simp [step, hp]⟩

end Threads

end Mutex
end BareHttp
