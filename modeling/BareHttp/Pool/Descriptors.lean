import BareHttp.Pool.System

/-!
# Who holds which connection

An accepted connection is in one place at a time: with `main` until it is pushed, in
the queue until it is popped, and then with a worker until that worker closes it.  A
`place` says where each connection is.  Each thread, and the queue, is in order
relative to the table and the places as long as what belongs to its place is left
alone (`Keeps`), so a step of one thread has to be looked at for that thread only.
-/

namespace BareHttp
namespace Pool

variable {n : ℕ}

/-- Where a connection is. -/
inductive Place (n : ℕ) where
  | queue
  | thread (t : Thread n)
  deriving DecidableEq

/-- An open descriptor that belongs to a place: a connection that is there, or a file
of the worker. -/
def Belongs (place : ℕ → Place n) (p : Place n) : Object → Prop
  | .connection k => place k = p
  | .file i => ∃ j : Fin n, j.val = i ∧ p = .thread (.worker j)
  | _ => False

/-- What belongs to a place is left alone. -/
structure Keeps (p : Place n) (table table' : ℕ → Slot) (place place' : ℕ → Place n) : Prop where
  stays : ∀ k, place k = p → place' k = p
  denotes : ∀ fd o, Belongs place p o → table fd = .opened o → table' fd = .opened o

/-- The number denotes the connection, and the connection is in the place. -/
def Holds (table : ℕ → Slot) (place : ℕ → Place n) (p : Place n) (k fd : ℕ) : Prop :=
  place k = p ∧ table fd = .opened (.connection k)

/-- The calls to come are sound, from a descriptor the worker holds as long as it is
open and files that are its own. -/
def Runs (table : ℕ → Slot) (place : ℕ → Place n) (i : Fin n) (k fd : ℕ) (cs : List SysCall) :
    Prop :=
  ∃ isOpen own, Sound isOpen own cs ∧
    (isOpen = true → Holds table place (.thread (.worker i)) k fd) ∧
    own.Nodup ∧ ∀ f ∈ own, table f = .opened (.file i)

/-- A worker is in order. -/
def WorkerOk (table : ℕ → Slot) (place : ℕ → Place n) (i : Fin n) (result : Option ℕ) :
    WorkerPc → Prop
  | .popped k => ∃ fd, result = some fd ∧ Holds table place (.thread (.worker i)) k fd
  | .registering k fd => Holds table place (.thread (.worker i)) k fd
  | .reading k fd => Holds table place (.thread (.worker i)) k fd
  | .acting k fd cs => Runs table place i k fd cs
  | .unregistering k fd cs => Runs table place i k fd cs
  | _ => True

/-- `main` is in order: it holds the connection it is pushing, and has not started to
close a connection of a worker. -/
def MainOk (table : ℕ → Slot) (place : ℕ → Place n) (call : Option QueueCall) :
    MainPc n → Prop
  | .pushing k fd => call ≠ none → Holds table place (.thread .main) k fd
  | .shuttingDown _ _ => False
  | .closing _ _ => False
  | _ => True

/-- The ring is in order: it holds the descriptors of the connections that are queued,
each of them once. -/
structure QueueOk (table : ℕ → Slot) (place : ℕ → Place n) (contents queued : List ℕ) :
    Prop where
  slots : contents.map table = queued.map fun k => .opened (.connection k)
  nodup : queued.Nodup
  queued : ∀ k ∈ queued, place k = .queue

section Frame

variable {table table' : ℕ → Slot} {place place' : ℕ → Place n} {p : Place n} {i : Fin n}

theorem Holds.keeps {k fd : ℕ} (h : Holds table place p k fd)
    (hk : Keeps p table table' place place') : Holds table' place' p k fd :=
  ⟨hk.stays k h.1, hk.denotes fd _ h.1 h.2⟩

theorem Runs.keeps {k fd : ℕ} {cs : List SysCall} (h : Runs table place i k fd cs)
    (hk : Keeps (.thread (.worker i)) table table' place place') :
    Runs table' place' i k fd cs := by
  obtain ⟨isOpen, own, hsound, hholds, hnodup, hown⟩ := h
  refine ⟨isOpen, own, hsound, fun ho => (hholds ho).keeps hk, hnodup, fun f hf => ?_⟩
  exact hk.denotes f _ ⟨i, rfl, rfl⟩ (hown f hf)

theorem WorkerOk.keeps {result : Option ℕ} {pc : WorkerPc} (h : WorkerOk table place i result pc)
    (hk : Keeps (.thread (.worker i)) table table' place place') :
    WorkerOk table' place' i result pc := by
  cases pc with
  | popped k =>
    obtain ⟨fd, hr, hholds⟩ := h
    exact ⟨fd, hr, hholds.keeps hk⟩
  | registering k fd => exact Holds.keeps h hk
  | reading k fd => exact Holds.keeps h hk
  | acting k fd cs => exact Runs.keeps h hk
  | unregistering k fd cs => exact Runs.keeps h hk
  | top | popping | exited => exact trivial

theorem MainOk.keeps {call : Option QueueCall} {pc : MainPc n} (h : MainOk table place call pc)
    (hk : Keeps (.thread .main) table table' place place') : MainOk table' place' call pc := by
  cases pc with
  | pushing k fd => exact fun hc => (h hc).keeps hk
  | shuttingDown i fd => exact h
  | closing i fd => exact h
  | looping | accepting | stopping | scanning | joining | closingListener | done => exact trivial

theorem QueueOk.keeps {contents queued : List ℕ} (h : QueueOk table place contents queued)
    (hk : Keeps .queue table table' place place') : QueueOk table' place' contents queued := by
  refine ⟨?_, h.nodup, fun k hkq => hk.stays k (h.queued k hkq)⟩
  rw [← h.slots]
  apply List.map_congr_left
  intro fd hfd
  have hslot : table fd ∈ queued.map fun k => Slot.opened (.connection k) := by
    rw [← h.slots]
    exact List.mem_map_of_mem hfd
  obtain ⟨k, hkq, hfdk⟩ := List.mem_map.mp hslot
  rw [← hfdk]
  exact hk.denotes fd _ (h.queued k hkq) hfdk.symm

theorem Keeps.refl (p : Place n) (table : ℕ → Slot) (place : ℕ → Place n) :
    Keeps p table table place place :=
  ⟨fun _ h => h, fun _ _ _ h => h⟩

/-- A number that does not belong to the place changes its meaning. -/
theorem Keeps.update {fd : ℕ} (slot : Slot)
    (h : ∀ o, table fd = .opened o → ¬ Belongs place p o) :
    Keeps p table (Function.update table fd slot) place place := by
  refine ⟨fun _ hk => hk, fun fd' o ho hfd' => ?_⟩
  have hne : fd' ≠ fd := by
    rintro rfl
    exact h o hfd' ho
  rw [Function.update_of_ne hne, hfd']

/-- A connection that is not in the place moves. -/
theorem Keeps.move {k : ℕ} (q : Place n) (h : place k ≠ p) :
    Keeps p table table place (Function.update place k q) := by
  refine ⟨fun k' hk' => ?_, fun _ _ _ hfd => hfd⟩
  have hne : k' ≠ k := by
    rintro rfl
    exact h hk'
  rw [Function.update_of_ne hne, hk']

end Frame

/-! ## Opening and closing -/

/-- A number that is open is none that is not. -/
theorem ne_of_isOpen_eq_false {table : ℕ → Slot} {fd g : ℕ} {o : Object}
    (h : (table fd).isOpen = false) (hg : table g = .opened o) : g ≠ fd := by
  rintro rfl
  rw [hg] at h
  exact absurd h (by simp [Slot.isOpen])

/-- Numbers that denote different objects are different. -/
theorem ne_of_opened {table : ℕ → Slot} {fd g : ℕ} {o o' : Object} (h : table fd = .opened o)
    (hg : table g = .opened o') (ho : o' ≠ o) : g ≠ fd := by
  rintro rfl
  exact ho (Slot.opened.inj (hg.symm.trans h))

/-- The table is in order with the calls made: a connection is open under one number at
most, its descriptor was closed at most once, and not at all while it is open. -/
structure TableOk (table : ℕ → Slot) (accepted : ℕ) (accesses : List (Access n)) : Prop where
  fresh : ∀ fd k, (table fd).object = some (.connection k) → k < accepted
  unique : ∀ fd fd' k, table fd = .opened (.connection k) → table fd' = .opened (.connection k) →
    fd = fd'
  closes_le : ∀ k, accesses.countP (Access.closesConnection k) ≤ 1
  closes_opened : ∀ fd k, table fd = .opened (.connection k) →
    accesses.countP (Access.closesConnection k) = 0
  closes_fresh : ∀ k, accepted ≤ k → accesses.countP (Access.closesConnection k) = 0

namespace TableOk

variable {table : ℕ → Slot} {accepted : ℕ} {accesses : List (Access n)}

/-- A call that closes no connection. -/
theorem access (h : TableOk table accepted accesses) {a : Access n}
    (ha : ∀ k, a.closesConnection k = false) : TableOk table accepted (accesses ++ [a]) := by
  have hcount : ∀ k, (accesses ++ [a]).countP (Access.closesConnection k) =
      accesses.countP (Access.closesConnection k) := by
    intro k
    simp [List.countP_append, ha k]
  exact ⟨h.fresh, h.unique, fun k => by rw [hcount]; exact h.closes_le k,
    fun fd k hfd => by rw [hcount]; exact h.closes_opened fd k hfd,
    fun k hk => by rw [hcount]; exact h.closes_fresh k hk⟩

/-- A number that is not open is given out to a new object. -/
theorem opens (h : TableOk table accepted accesses) {fd : ℕ} (o : Object)
    (ho : ∀ k, o ≠ .connection k) :
    TableOk (Function.update table fd (.opened o)) accepted accesses := by
  have hother : ∀ fd' k, Function.update table fd (.opened o) fd' = .opened (.connection k) →
      table fd' = .opened (.connection k) := by
    intro fd' k hfd'
    by_cases hfd : fd' = fd
    · subst hfd
      rw [Function.update_self] at hfd'
      exact absurd (Slot.opened.inj hfd') (ho k)
    · rwa [Function.update_of_ne hfd] at hfd'
  refine ⟨fun fd' k hk => ?_, fun fd₁ fd₂ k h₁ h₂ =>
    h.unique fd₁ fd₂ k (hother fd₁ k h₁) (hother fd₂ k h₂), h.closes_le,
    fun fd' k hfd' => h.closes_opened fd' k (hother fd' k hfd'), h.closes_fresh⟩
  by_cases hfd : fd' = fd
  · subst hfd
    rw [Function.update_self] at hk
    exact absurd (Option.some.inj hk) (ho k)
  · rw [Function.update_of_ne hfd] at hk
    exact h.fresh fd' k hk

/-- A number that is not open is given out to the next connection. -/
theorem accept (h : TableOk table accepted accesses) (fd : ℕ) :
    TableOk (Function.update table fd (.opened (.connection accepted))) (accepted + 1)
      accesses := by
  have hother : ∀ fd' k, fd' ≠ fd →
      Function.update table fd (.opened (.connection accepted)) fd' = .opened (.connection k) →
      table fd' = .opened (.connection k) := by
    intro fd' k hfd hfd'
    rwa [Function.update_of_ne hfd] at hfd'
  have hnew : ∀ fd' k, Function.update table fd (.opened (.connection accepted)) fd' =
      .opened (.connection k) → (fd' = fd ∧ k = accepted) ∨
        (fd' ≠ fd ∧ k < accepted ∧ table fd' = .opened (.connection k)) := by
    intro fd' k hfd'
    by_cases hfd : fd' = fd
    · subst hfd
      rw [Function.update_self] at hfd'
      exact .inl ⟨rfl, (Object.connection.inj (Slot.opened.inj hfd')).symm⟩
    · have hold := hother fd' k hfd hfd'
      exact .inr ⟨hfd, h.fresh fd' k (by rw [hold]; rfl), hold⟩
  refine ⟨fun fd' k hk => ?_, fun fd₁ fd₂ k h₁ h₂ => ?_, h.closes_le, fun fd' k hfd' => ?_,
    fun k hk => h.closes_fresh k (by omega)⟩
  · by_cases hfd : fd' = fd
    · subst hfd
      rw [Function.update_self] at hk
      have : accepted = k := Object.connection.inj (Option.some.inj hk)
      omega
    · rw [Function.update_of_ne hfd] at hk
      have := h.fresh fd' k hk
      omega
  · rcases hnew fd₁ k h₁ with ⟨e₁, hk₁⟩ | ⟨-, hk₁, ht₁⟩
    · rcases hnew fd₂ k h₂ with ⟨e₂, -⟩ | ⟨-, hk₂, -⟩
      · rw [e₁, e₂]
      · omega
    · rcases hnew fd₂ k h₂ with ⟨-, hk₂⟩ | ⟨-, -, ht₂⟩
      · omega
      · exact h.unique fd₁ fd₂ k ht₁ ht₂
  · rcases hnew fd' k hfd' with ⟨-, rfl⟩ | ⟨-, -, ht⟩
    · exact h.closes_fresh _ (Nat.le_refl _)
    · exact h.closes_opened fd' k ht

/-- An open descriptor is closed. -/
theorem close (h : TableOk table accepted accesses) {fd : ℕ} {o : Object}
    (ho : table fd = .opened o) (t : Thread n) (serving : Option ℕ) :
    TableOk (Function.update table fd (table fd).close) accepted
      (accesses ++ [⟨t, serving, .close, table fd⟩]) := by
  have hcount : ∀ k, List.countP (Access.closesConnection k)
        (accesses ++ [⟨t, serving, .close, table fd⟩]) =
      accesses.countP (Access.closesConnection k) + if o = .connection k then 1 else 0 := by
    intro k
    simp [List.countP_append, Access.closesConnection, ho, Slot.object, List.countP_cons]
  have hother : ∀ fd' o', Function.update table fd (table fd).close fd' = .opened o' →
      fd' ≠ fd ∧ table fd' = .opened o' := by
    intro fd' o' hfd'
    by_cases hfd : fd' = fd
    · subst hfd
      rw [Function.update_self, ho] at hfd'
      exact absurd hfd' (by simp [Slot.close])
    · exact ⟨hfd, by rwa [Function.update_of_ne hfd] at hfd'⟩
  refine ⟨fun fd' k hk => ?_, fun fd₁ fd₂ k h₁ h₂ =>
    h.unique fd₁ fd₂ k (hother fd₁ _ h₁).2 (hother fd₂ _ h₂).2, fun k => ?_,
    fun fd' k hfd' => ?_, fun k hk => ?_⟩
  · by_cases hfd : fd' = fd
    · subst hfd
      rw [Function.update_self, ho] at hk
      exact h.fresh fd' k (by rw [ho]; exact hk)
    · rw [Function.update_of_ne hfd] at hk
      exact h.fresh fd' k hk
  · rw [hcount]
    split
    · next hok =>
      rw [h.closes_opened fd k (by rw [ho, hok])]
    · exact h.closes_le k
  · obtain ⟨hne, hold⟩ := hother fd' _ hfd'
    rw [hcount, h.closes_opened fd' k hold, if_neg]
    intro hok
    exact hne (h.unique fd' fd k hold (by rw [ho, hok]))
  · rw [hcount, h.closes_fresh k hk, if_neg]
    intro hok
    have := h.fresh fd k (by rw [ho, hok]; rfl)
    omega

end TableOk

end Pool
end BareHttp
