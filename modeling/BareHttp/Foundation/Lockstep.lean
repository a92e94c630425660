import BareHttp.Foundation.Scanner

/-!
# Scanners that write, and two of them in lockstep

A parser with out-parameters is a scanner that also reads and writes a store.  Its answer is
that of a scanner, and the store is there behind every answer, also where the parser fails in
the middle: what was written before stays written.

The same parser can be run over two kinds of store, say over variables and over the fields of
a record in memory.  `Lockstep` says that it then gives the same answer, from stores that are
related in one way to stores that are related in another.  The rules follow the ways an action
is put together, so that a proof goes through the parser once and has only to say what one
write does to the relation.  The input is the same on both sides and gets no longer; `n` is a
bound for it.

A parser can also be written without a store, as a scanner that returns what it has found.
`Follows` says that an action gives the answer of a scanner and leaves in the store what the
scanner returns.  Its rules read the action from the front: a scan is one of the scanner as well,
and an access to the store is none.
-/

namespace BareHttp

/-- A scanner with a store. -/
abbrev Action (σ ε ι α : Type) := List ι → σ → Scan ε ι α × σ

namespace Action

variable {σ τ ε ι α β : Type}

/-- Read the input. -/
def scan (f : Scanner ε ι α) : Action σ ε ι α := fun p s => (f p, s)

/-- Read the store. -/
def read (x : σ → α) : Action σ ε ι α := fun p s => (.done (x s) p, s)

/-- Write the store. -/
def modify (x : σ → σ) : Action σ ε ι Unit := fun p s => (.done () p, x s)

/-- One action behind the other. -/
def bind (f : Action σ ε ι α) (k : α → Action σ ε ι β) : Action σ ε ι β := fun p s =>
  match f p s with
  | (.done a rest, s) => k a rest s
  | (.fail e, s) => (.fail e, s)
  | (.incomplete, s) => (.incomplete, s)

/-- **Two actions in lockstep.**  `I` holds of the stores whatever the answer is; `P` is what
is known of them before, and `Q` behind an answer. -/
def Lockstep (n : ℕ) (I P : σ → τ → Prop) (f : Action σ ε ι α) (g : Action τ ε ι α)
    (Q : α → σ → τ → Prop) : Prop :=
  ∀ p s t, p.length ≤ n → I s t → P s t →
    (f p s).1 = (g p t).1 ∧ I (f p s).2 (g p t).2 ∧
      ∀ a rest, (f p s).1 = .done a rest → rest.length ≤ n ∧ Q a (f p s).2 (g p t).2

namespace Lockstep

variable {n : ℕ} {I P P' : σ → τ → Prop} {f : Action σ ε ι α} {g : Action τ ε ι α}
  {Q : α → σ → τ → Prop}

theorem scan {f : Scanner ε ι α} (hf : f.Consumes)
    (hQ : ∀ p a rest s t, p.length ≤ n → f p = .done a rest → P s t → Q a s t) :
    Lockstep n I P (scan f) (scan f) Q := by
  intro p s t hp hI hP
  refine ⟨rfl, hI, fun a rest hdone => ⟨?_, hQ p a rest s t hp hdone hP⟩⟩
  exact Nat.le_trans (hf p a rest hdone).length_le hp

theorem read {x : σ → α} {y : τ → α} (heq : ∀ s t, P s t → x s = y t)
    (hQ : ∀ s t, P s t → Q (y t) s t) :
    Lockstep n I P (read x : Action σ ε ι α) (read y) Q := by
  intro p s t hp hI hP
  refine ⟨by rw [Action.read, Action.read, heq s t hP], hI, fun a rest hdone => ?_⟩
  obtain ⟨rfl, rfl⟩ := Scan.done.inj hdone
  exact ⟨hp, heq s t hP ▸ hQ s t hP⟩

theorem modify {x : σ → σ} {y : τ → τ} {Q : Unit → σ → τ → Prop}
    (hI : ∀ s t, I s t → I (x s) (y t)) (hQ : ∀ s t, P s t → Q () (x s) (y t)) :
    Lockstep n I P (modify x : Action σ ε ι Unit) (modify y) Q := by
  intro p s t hp hIst hP
  refine ⟨rfl, hI s t hIst, fun a rest hdone => ?_⟩
  obtain ⟨-, rfl⟩ := Scan.done.inj hdone
  exact ⟨hp, hQ s t hP⟩

theorem bind {k : α → Action σ ε ι β} {k' : α → Action τ ε ι β} {R : β → σ → τ → Prop}
    (hf : Lockstep n I P f g Q) (hk : ∀ a, Lockstep n I (Q a) (k a) (k' a) R) :
    Lockstep n I P (f.bind k) (g.bind k') R := by
  intro p s t hp hI hP
  obtain ⟨heq, hI', hdone⟩ := hf p s t hp hI hP
  rcases hx : f p s with ⟨x, s'⟩
  rcases hy : g p t with ⟨y, t'⟩
  rw [hx, hy] at heq hI' hdone
  obtain rfl : x = y := heq
  simp only [Action.bind, hx, hy]
  cases x with
  | done a rest =>
    obtain ⟨hrest, hQ⟩ := hdone a rest rfl
    exact hk a rest s' t' hrest hI' hQ
  | fail e => exact ⟨rfl, hI', fun a rest h => absurd h (by simp)⟩
  | incomplete => exact ⟨rfl, hI', fun a rest h => absurd h (by simp)⟩

/-- Less is known before. -/
theorem weaken (h : Lockstep n I P f g Q) (hP : ∀ s t, P' s t → P s t) :
    Lockstep n I P' f g Q :=
  fun p s t hp hI hP' => h p s t hp hI (hP s t hP')

/-- What is known of the stores says something about a value read before. -/
theorem given {φ : Prop} (hφ : ∀ s t, P s t → φ) (h : φ → Lockstep n I P f g Q) :
    Lockstep n I P f g Q :=
  fun p s t hp hI hP => h (hφ s t hP) p s t hp hI hP

/-- An action that depends on how much input is left. -/
theorem sized {f : ℕ → Action σ ε ι α} {g : ℕ → Action τ ε ι α}
    (h : ∀ k, Lockstep n I P (f k) (g k) Q) :
    Lockstep n I P (fun p => f p.length p) (fun p => g p.length p) Q :=
  fun p => h p.length p

end Lockstep

/-- **An action that follows a scanner**: from an input and a store with `P` it gives the answer
of the scanner, and behind a value the rest and the store have `Q`. -/
def Follows (P : List ι → σ → Prop) (f : Action σ ε ι α) (g : Scanner ε ι β)
    (Q : β → List ι → σ → Prop) : Prop :=
  ∀ p s, P p s →
    match g p with
    | .done b rest => ∃ a s', f p s = (.done a rest, s') ∧ Q b rest s'
    | .fail e => (f p s).1 = .fail e
    | .incomplete => (f p s).1 = .incomplete

namespace Follows

variable {γ : Type} {P P' : List ι → σ → Prop} {f : Action σ ε ι α} {g g' : Scanner ε ι β}
  {Q : β → List ι → σ → Prop} {k : α → Action σ ε ι γ}

theorem weaken (h : Follows P f g Q) (hP : ∀ p s, P' p s → P p s) : Follows P' f g Q :=
  fun p s hp => h p s (hP p s hp)

/-- The scanner is another one on the inputs that are possible. -/
theorem congr (hg : ∀ p s, P p s → g p = g' p) (h : Follows P f g' Q) : Follows P f g Q := by
  intro p s hp
  rw [hg p s hp]
  exact h p s hp

/-- What is known says something about a value found before. -/
theorem given {φ : Prop} (hφ : ∀ p s, P p s → φ) (h : φ → Follows P f g Q) : Follows P f g Q :=
  fun p s hp => h (hφ p s hp) p s hp

theorem scan {g : Scanner ε ι β} (hQ : ∀ p b rest s, P p s → g p = .done b rest → Q b rest s) :
    Follows P (scan g) g Q := by
  intro p s hp
  cases hg : g p with
  | done b rest => exact ⟨b, s, by rw [Action.scan, hg], hQ p b rest s hp hg⟩
  | fail e => rw [Action.scan, hg]
  | incomplete => rw [Action.scan, hg]

theorem modify {x : σ → σ} {b : β} (hQ : ∀ p s, P p s → Q b p (x s)) :
    Follows P (modify x : Action σ ε ι Unit) (fun p => .done b p) Q :=
  fun p s hp => ⟨(), x s, rfl, hQ p s hp⟩

theorem bind {δ : Type} {l : β → Scanner ε ι δ} {R : δ → List ι → σ → Prop}
    (hf : Follows P f g Q) (hk : ∀ a b, Follows (Q b) (k a) (l b) R) :
    Follows P (f.bind k) (fun p => (g p).bind l) R := by
  intro p s hp
  have hfp := hf p s hp
  cases hg : g p with
  | done b rest =>
    rw [hg] at hfp
    obtain ⟨a, s', hstep, hQ⟩ := hfp
    simpa only [hg, Scan.bind_done, Action.bind, hstep] using hk a b rest s' hQ
  | fail e =>
    rw [hg] at hfp
    rcases hx : f p s with ⟨x, s'⟩
    rw [hx] at hfp
    obtain rfl : x = .fail e := hfp
    simp only [hg, Scan.bind_fail, Action.bind, hx]
  | incomplete =>
    rw [hg] at hfp
    rcases hx : f p s with ⟨x, s'⟩
    rw [hx] at hfp
    obtain rfl : x = .incomplete := hfp
    simp only [hg, Scan.bind_incomplete, Action.bind, hx]

/-- The scanner returns a function of what it has found. -/
theorem map {δ : Type} (y : β → δ) {R : δ → List ι → σ → Prop} (h : Follows P f g Q)
    (hR : ∀ b rest s, Q b rest s → R (y b) rest s) :
    Follows P f (fun p => (g p).bind fun b rest => .done (y b) rest) R := by
  intro p s hp
  have hfp := h p s hp
  cases hg : g p with
  | done b rest =>
    rw [hg] at hfp
    obtain ⟨a, s', hstep, hQ⟩ := hfp
    simpa only [hg, Scan.bind_done] using ⟨a, s', hstep, hR b rest s' hQ⟩
  | fail e =>
    rw [hg] at hfp
    simpa only [hg, Scan.bind_fail] using hfp
  | incomplete =>
    rw [hg] at hfp
    simpa only [hg, Scan.bind_incomplete] using hfp

/-- Less is asked behind. -/
theorem relax {R : β → List ι → σ → Prop} (h : Follows P f g Q)
    (hR : ∀ b rest s, Q b rest s → R b rest s) : Follows P f g R :=
  .congr (fun p _ _ => (Scan.bind_pure (g p)).symm) (h.map id hR)

/-- An action in front that leaves the input alone. -/
theorem silent_bind (hf : Follows P f (fun p => .done () p) fun _ => P')
    (hk : ∀ a, Follows P' (k a) g Q) : Follows P (f.bind k) g Q := by
  intro p s hp
  obtain ⟨a, s', hstep, hP'⟩ := hf p s hp
  simpa only [Action.bind, hstep] using hk a p s' hP'

/-- A scan in front. -/
theorem scan_bind {f : Scanner ε ι α} {l : α → Scanner ε ι β} {S : α → List ι → σ → Prop}
    (hf : ∀ p a rest s, P p s → f p = .done a rest → S a rest s)
    (hk : ∀ a, Follows (S a) (k a) (l a) Q) :
    Follows P ((Action.scan f).bind k) (fun p => (f p).bind l) Q := by
  intro p s hp
  cases hfp : f p with
  | done a rest =>
    simpa only [hfp, Scan.bind_done, Action.bind, Action.scan] using
      hk a rest s (hf p a rest s hp hfp)
  | fail e => simp only [hfp, Scan.bind_fail, Action.bind, Action.scan]
  | incomplete => simp only [hfp, Scan.bind_incomplete, Action.bind, Action.scan]

/-- A look at the input in front, which takes nothing of it. -/
theorem look_bind (x : List ι → α)
    (hk : ∀ a, Follows (fun p s => P p s ∧ a = x p) (k a) g Q) :
    Follows P ((Action.scan fun p => .done (x p) p).bind k) g Q :=
  fun p s hp => hk (x p) p s ⟨hp, rfl⟩

/-- A read in front, of a value that is known. -/
theorem read_bind {x : σ → α} {a : α} (hx : ∀ p s, P p s → x s = a) (hk : Follows P (k a) g Q) :
    Follows P ((Action.read x).bind k) g Q := by
  intro p s hp
  have hka := hk p s hp
  rw [← hx p s hp] at hka
  exact hka

/-- A write in front. -/
theorem modify_bind {x : σ → σ} {k : Unit → Action σ ε ι γ} (hx : ∀ p s, P p s → P' p (x s))
    (hk : Follows P' (k ()) g Q) : Follows P ((Action.modify x).bind k) g Q :=
  fun p s hp => hk p (x s) (hx p s hp)

/-- An action and a scanner that depend on how much input is left. -/
theorem sized {f : ℕ → Action σ ε ι α} {g : ℕ → Scanner ε ι β}
    (h : ∀ k, Follows P (f k) (g k) Q) :
    Follows P (fun p => f p.length p) (fun p => g p.length p) Q :=
  fun p => h p.length p

/-- **An action in lockstep with one that follows a scanner** follows it too. -/
theorem of_lockstep {τ : Type} {n : ℕ} {I J : σ → τ → Prop} {f : Action σ ε ι α}
    {f' : Action τ ε ι α} {J' : α → σ → τ → Prop} {P : List ι → τ → Prop}
    {Q : β → List ι → τ → Prop} (hf : Lockstep n I J f f' J') (h : Follows P f' g Q) :
    Follows (fun p s => ∃ t, p.length ≤ n ∧ I s t ∧ J s t ∧ P p t) f g
      (fun b rest s => ∃ a t, J' a s t ∧ Q b rest t) := by
  rintro p s ⟨t, hp, hI, hJ, hP⟩
  obtain ⟨hanswer, -, hdone⟩ := hf p s t hp hI hJ
  have hfp := h p t hP
  cases hg : g p with
  | done b rest =>
    rw [hg] at hfp
    obtain ⟨a, t', hstep, hQ⟩ := hfp
    rw [hstep] at hanswer hdone
    exact ⟨a, (f p s).2, Prod.ext hanswer rfl, a, t', (hdone a rest hanswer).2, hQ⟩
  | fail e =>
    rw [hg] at hfp
    exact hanswer.trans hfp
  | incomplete =>
    rw [hg] at hfp
    exact hanswer.trans hfp

end Follows
end Action
end BareHttp
