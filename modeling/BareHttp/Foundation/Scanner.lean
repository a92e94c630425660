import Mathlib.Data.List.Basic
import Mathlib.Tactic.Common

/-!
# Incremental scanners

A scanner reads a prefix of the input received so far.  It either finishes with a
value and the unread rest, fails for good, or answers that the input is too short
to decide.  Input arrives in pieces, so the property every caller relies on is
that a decided answer does not change when more input is appended: that is
`Stable`.  The closure rules below reduce stability of a parser to stability of
its primitive scans.

The contrapositive is the form used on a segmented input: a stable scanner that
consumes the whole of `h` answers `incomplete` on every proper prefix of `h`
(`Stable.incomplete_of_append`).
-/

namespace BareHttp

/-- The answer of a scanner: done with a value and the rest, failed, or too short
to tell. -/
inductive Scan (ε ι α : Type) where
  | done (a : α) (rest : List ι)
  | fail (e : ε)
  | incomplete
  deriving DecidableEq

namespace Scan

variable {ε ι α β : Type}

/-- The same answer with `x` appended to the unread input. -/
def extend (x : List ι) : Scan ε ι α → Scan ε ι α
  | done a rest => done a (rest ++ x)
  | fail e => fail e
  | incomplete => incomplete

/-- Continue on the rest. -/
def bind (s : Scan ε ι α) (k : α → List ι → Scan ε ι β) : Scan ε ι β :=
  match s with
  | done a rest => k a rest
  | fail e => fail e
  | incomplete => incomplete

@[simp] theorem extend_done (x : List ι) (a : α) (rest : List ι) :
    (done a rest : Scan ε ι α).extend x = done a (rest ++ x) := rfl

@[simp] theorem extend_fail (x : List ι) (e : ε) :
    (fail e : Scan ε ι α).extend x = fail e := rfl

@[simp] theorem bind_done (a : α) (rest : List ι) (k : α → List ι → Scan ε ι β) :
    (done a rest : Scan ε ι α).bind k = k a rest := rfl

@[simp] theorem bind_fail (e : ε) (k : α → List ι → Scan ε ι β) :
    (fail e : Scan ε ι α).bind k = fail e := rfl

@[simp] theorem bind_incomplete (k : α → List ι → Scan ε ι β) :
    (incomplete : Scan ε ι α).bind k = incomplete := rfl

theorem bind_pure (s : Scan ε ι α) : s.bind done = s := by
  cases s <;> rfl

theorem bind_assoc {γ : Type} (s : Scan ε ι α) (k : α → List ι → Scan ε ι β)
    (l : β → List ι → Scan ε ι γ) :
    (s.bind k).bind l = s.bind fun a rest => (k a rest).bind l := by
  cases s <;> rfl

theorem bind_eq_done {s : Scan ε ι α} {k : α → List ι → Scan ε ι β} {b : β} {r : List ι}
    (h : s.bind k = done b r) : ∃ a rest, s = done a rest ∧ k a rest = done b r := by
  cases s with
  | done a rest => exact ⟨a, rest, rfl, h⟩
  | fail e => exact absurd h (by simp)
  | incomplete => exact absurd h (by simp)

end Scan

/-- A scanner is a function of the input received so far. -/
abbrev Scanner (ε ι α : Type) := List ι → Scan ε ι α

namespace Scanner

variable {ε ι α β : Type}

/-- **A decided answer survives more input.** -/
def Stable (f : Scanner ε ι α) : Prop :=
  ∀ p x, f p ≠ Scan.incomplete → f (p ++ x) = (f p).extend x

/-- The rest is a suffix of the input. -/
def Consumes (f : Scanner ε ι α) : Prop :=
  ∀ p a rest, f p = Scan.done a rest → rest <:+ p

theorem Stable.done {f : Scanner ε ι α} (hf : Stable f) {p : List ι} {a : α} {rest : List ι}
    (h : f p = Scan.done a rest) (x : List ι) : f (p ++ x) = Scan.done a (rest ++ x) := by
  rw [hf p x (by rw [h]; simp), h, Scan.extend_done]

theorem Stable.fail {f : Scanner ε ι α} (hf : Stable f) {p : List ι} {e : ε}
    (h : f p = Scan.fail e) (x : List ι) : f (p ++ x) = Scan.fail e := by
  rw [hf p x (by rw [h]; simp), h, Scan.extend_fail]

theorem Stable.bind {f : Scanner ε ι α} {k : α → Scanner ε ι β} (hf : Stable f)
    (hk : ∀ a, Stable (k a)) : Stable fun p => (f p).bind k := by
  intro p x hne
  change (f p).bind k ≠ Scan.incomplete at hne
  show (f (p ++ x)).bind k = ((f p).bind k).extend x
  cases h : f p with
  | done a rest =>
    rw [h, Scan.bind_done] at hne
    rw [hf.done h x, Scan.bind_done, Scan.bind_done]
    exact hk a rest x hne
  | fail e => rw [hf.fail h x, Scan.bind_fail, Scan.extend_fail]
  | incomplete => exact absurd (by rw [h, Scan.bind_incomplete]) hne

/-- A test that reads no input chooses between two stable scanners. -/
theorem Stable.ite {f g : Scanner ε ι α} (c : Prop) [Decidable c] (hf : Stable f)
    (hg : Stable g) : Stable fun p => if c then f p else g p := by
  by_cases hc : c
  · simpa only [if_pos hc] using hf
  · simpa only [if_neg hc] using hg

theorem Stable.const_fail (e : ε) : Stable (fun _ => Scan.fail e : Scanner ε ι α) :=
  fun _ _ _ => rfl

theorem Stable.pure (a : α) : Stable (fun p => Scan.done a p : Scanner ε ι α) :=
  fun _ _ _ => rfl

/-- Waiting for more symbols does not hurt. -/
theorem Stable.atLeast {f : Scanner ε ι α} (hf : Stable f) (n : ℕ) :
    Stable fun p => if p.length < n then Scan.incomplete else f p := by
  intro p x hne
  by_cases hp : p.length < n
  · exact absurd (if_pos hp) hne
  · have hpx : ¬ (p ++ x).length < n := by rw [List.length_append]; omega
    simp only [if_neg hp] at hne
    simp only [if_neg hp, if_neg hpx]
    exact hf p x hne

/-- A scanner that looks at one symbol before it decides is stable when it is
stable after each first symbol. -/
theorem Stable.of_head {f : Scanner ε ι α} (hnil : f [] = Scan.incomplete)
    (hcons : ∀ c, Stable fun p => f (c :: p)) : Stable f := by
  intro p x hne
  cases p with
  | nil => exact absurd hnil hne
  | cons c p => exact hcons c p x hne

/-- Putting a symbol back does not hurt. -/
theorem Stable.cons {f : Scanner ε ι α} (hf : Stable f) (c : ι) : Stable fun p => f (c :: p) :=
  fun p x hne => hf (c :: p) x hne

/-- **A scanner that reads all of `h` cannot decide on a proper prefix of `h`.** -/
theorem Stable.incomplete_of_append {f : Scanner ε ι α} (hf : Stable f) {p x : List ι} {a : α}
    (h : f (p ++ x) = Scan.done a []) (hx : x ≠ []) : f p = Scan.incomplete := by
  cases hp : f p with
  | done b rest =>
    rw [hf.done hp x] at h
    have hnil : rest ++ x = [] := (Scan.done.inj h).2
    exact absurd (List.append_eq_nil_iff.mp hnil).2 hx
  | fail e =>
    rw [hf.fail hp x] at h
    exact absurd h (by simp)
  | incomplete => rfl

/-! ## Primitive scans -/

/-- Read up to the first symbol that satisfies `stop`, which is left unread.  Any
symbol before it must satisfy `ok`. -/
def takeUntil (e : ε) (stop ok : ι → Bool) : Scanner ε ι (List ι)
  | [] => Scan.incomplete
  | c :: p =>
    if stop c then Scan.done [] (c :: p)
    else if ok c then (takeUntil e stop ok p).bind fun tok rest => Scan.done (c :: tok) rest
    else Scan.fail e

/-- Read one symbol, which must satisfy `ok`. -/
def one (e : ε) (ok : ι → Bool) : Scanner ε ι ι
  | [] => Scan.incomplete
  | c :: p => if ok c then Scan.done c p else Scan.fail e

theorem stable_one (e : ε) (ok : ι → Bool) : Stable (one e ok) := by
  intro p x hne
  cases p with
  | nil => exact absurd rfl hne
  | cons c p =>
    by_cases hc : ok c = true
    · simp [one, hc]
    · simp [one, hc]

theorem stable_takeUntil (e : ε) (stop ok : ι → Bool) : Stable (takeUntil e stop ok) := by
  intro p x hne
  induction p with
  | nil => exact absurd rfl hne
  | cons c p ih =>
    by_cases hs : stop c = true
    · simp [takeUntil, hs]
    · by_cases hk : ok c = true
      · simp only [takeUntil, hs, hk, if_true, Bool.false_eq_true, if_false] at hne
        simp only [List.cons_append, takeUntil, hs, hk, if_true, Bool.false_eq_true, if_false]
        have hp : takeUntil e stop ok p ≠ Scan.incomplete := by
          intro h
          rw [h] at hne
          exact hne rfl
        rw [ih hp]
        cases takeUntil e stop ok p <;> rfl
      · simp [takeUntil, hs, hk]

/-- What a finished `takeUntil` read: a run of symbols that do not stop and are
`ok`, up to a symbol that stops. -/
theorem takeUntil_eq_done {e : ε} {stop ok : ι → Bool} {p tok rest : List ι}
    (h : takeUntil e stop ok p = Scan.done tok rest) :
    p = tok ++ rest ∧ (∀ c ∈ tok, stop c = false ∧ ok c = true) ∧
      ∃ d t, rest = d :: t ∧ stop d = true := by
  induction p generalizing tok with
  | nil => exact absurd h (by simp [takeUntil])
  | cons c p ih =>
    unfold takeUntil at h
    split_ifs at h with hs hk
    · obtain ⟨rfl, rfl⟩ := Scan.done.inj h
      exact ⟨rfl, by simp, c, p, rfl, hs⟩
    · obtain ⟨tok', rest', hp, heq⟩ := Scan.bind_eq_done h
      obtain ⟨rfl, rfl⟩ := Scan.done.inj heq
      obtain ⟨h1, h2, h3⟩ := ih hp
      refine ⟨by rw [h1, List.cons_append], ?_, h3⟩
      intro d hd
      rcases List.mem_cons.mp hd with rfl | hd
      · exact ⟨by simpa using hs, hk⟩
      · exact h2 d hd

/-- The other direction: such a run is read. -/
theorem takeUntil_append {e : ε} {stop ok : ι → Bool} {tok t : List ι} {d : ι}
    (htok : ∀ c ∈ tok, stop c = false ∧ ok c = true) (hd : stop d = true) :
    takeUntil e stop ok (tok ++ d :: t) = Scan.done tok (d :: t) := by
  induction tok with
  | nil => rw [List.nil_append, takeUntil, if_pos hd]
  | cons c tok ih =>
    obtain ⟨⟨hs, hk⟩, hrest⟩ := List.forall_mem_cons.mp htok
    rw [List.cons_append, takeUntil, if_neg (by simp [hs]), if_pos hk, ih hrest, Scan.bind_done]

/-- Symbols that are read anyway may be read beforehand. -/
theorem takeUntil_append_eq {e : ε} {stop ok : ι → Bool} {tok : List ι}
    (htok : ∀ c ∈ tok, stop c = false ∧ ok c = true) (p : List ι) :
    takeUntil e stop ok (tok ++ p) =
      (takeUntil e stop ok p).bind fun t rest => Scan.done (tok ++ t) rest := by
  induction tok with
  | nil => exact (Scan.bind_pure _).symm
  | cons c tok ih =>
    obtain ⟨⟨hs, hk⟩, hrest⟩ := List.forall_mem_cons.mp htok
    rw [List.cons_append, takeUntil, if_neg (by simp [hs]), if_pos hk, ih hrest, Scan.bind_assoc]
    rfl

theorem one_eq_done {e : ε} {ok : ι → Bool} {p rest : List ι} {a : ι}
    (h : one e ok p = Scan.done a rest) : p = a :: rest ∧ ok a = true := by
  cases p with
  | nil => exact absurd h (by simp [one])
  | cons c p =>
    simp only [one] at h
    split_ifs at h with hc
    obtain ⟨rfl, rfl⟩ := Scan.done.inj h
    exact ⟨rfl, hc⟩

theorem Consumes.bind {f : Scanner ε ι α} {k : α → Scanner ε ι β} (hf : Consumes f)
    (hk : ∀ a, Consumes (k a)) : Consumes fun p => (f p).bind k := by
  intro p b r h
  obtain ⟨a, rest, hfp, hka⟩ := Scan.bind_eq_done h
  exact (hk a rest b r hka).trans (hf p a rest hfp)

theorem Consumes.pure (a : α) : Consumes (fun p => Scan.done a p : Scanner ε ι α) := by
  intro p b rest h
  obtain ⟨-, rfl⟩ := Scan.done.inj h
  exact List.suffix_rfl

theorem consumes_takeUntil (e : ε) (stop ok : ι → Bool) : Consumes (takeUntil e stop ok) := by
  intro p tok rest h
  exact ⟨tok, (takeUntil_eq_done h).1.symm⟩

theorem consumes_one (e : ε) (ok : ι → Bool) : Consumes (one e ok) := by
  intro p a rest h
  exact ⟨[a], (one_eq_done h).1.symm⟩

end Scanner
end BareHttp
