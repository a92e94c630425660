import Mathlib.Data.List.Nodup
import Mathlib.Logic.Function.Basic

/-!
# Singly linked lists in memory

A list variable, cells with a `next` pointer, and the two operations a program has on
them without a sentinel: to put a new cell in front, and to take a cell out by walking a
pointer to the pointer to it.  Addresses are numbers, and `0` is the null pointer.

The variable need not have been initialised.  What it held before the first cell was put
in front is then the `tail` of the list: an address that may be null, or that of no cell,
or even that of a cell that is put into the list later.  `Linked` describes the part of the
list in front of it.  The walk never comes to the tail where its cell is in that part
(`remove_of_linked`), so nothing has to be known about it.
-/

namespace BareHttp
namespace PointerList

variable {α : Type}

/-- A cell. -/
structure Cell (α : Type) where
  data : α
  next : ℕ

/-- The list variable and the cells that are allocated. -/
structure Memory (α : Type) where
  head : ℕ
  cells : ℕ → Option (Cell α)

/-- A place that holds a pointer: the list variable, or the field of a cell. -/
inductive Link where
  | head
  | next (a : ℕ)
  deriving DecidableEq

/-- What came of a walk. -/
inductive Removal (α : Type) where
  | removed (m : Memory α)
  | absent
  | fault

namespace Memory

/-- What a cell holds. -/
def data (m : Memory α) (a : ℕ) : Option α := (m.cells a).map Cell.data

/-- `*aux`; a cell that is not allocated cannot be read. -/
def read (m : Memory α) : Link → Option ℕ
  | .head => some m.head
  | .next a => (m.cells a).map Cell.next

/-- `*aux = p`. -/
def write (m : Memory α) (p : ℕ) : Link → Memory α
  | .head => { m with head := p }
  | .next a =>
    { m with cells := Function.update m.cells a ((m.cells a).map fun c => { c with next := p }) }

/-- A new cell in front. -/
def push (m : Memory α) (a : ℕ) (x : α) : Memory α :=
  ⟨a, Function.update m.cells a (some ⟨x, m.head⟩)⟩

/-- `free`. -/
def free (m : Memory α) (a : ℕ) : Memory α :=
  { m with cells := Function.update m.cells a none }

/-- A cell gets new contents. -/
def set (m : Memory α) (a : ℕ) (x : α) : Memory α :=
  { m with cells := Function.update m.cells a ((m.cells a).map fun c => { c with data := x }) }

/-- The walk from the place `aux` on: up to the pointer to the cell, which is redirected
behind it, or up to a null pointer.  A walk that needs more than `fuel` steps does not end
here; on a list that runs into itself it would never end. -/
def remove (m : Memory α) (a : ℕ) : ℕ → Link → Removal α
  | 0, _ => .fault
  | fuel + 1, aux =>
    match m.read aux with
    | none => .fault
    | some p =>
      if p = 0 then .absent
      else if p = a then
        match m.cells a with
        | none => .fault
        | some c => .removed ((m.write c.next aux).free a)
      else m.remove a fuel (.next p)

@[simp] theorem data_push_self (m : Memory α) (a : ℕ) (x : α) : (m.push a x).data a = some x := by
  simp [data, push]

theorem data_push_of_ne (m : Memory α) {a b : ℕ} (x : α) (hb : b ≠ a) :
    (m.push a x).data b = m.data b := by
  simp [data, push, Function.update_of_ne hb]

theorem data_set_self {m : Memory α} {a : ℕ} {x : α} (hx : m.data a = some x) (y : α) :
    (m.set a y).data a = some y := by
  obtain ⟨c, hc, -⟩ := Option.map_eq_some_iff.mp hx
  simp [data, set, hc]

theorem data_set_of_ne (m : Memory α) {a b : ℕ} (x : α) (hb : b ≠ a) :
    (m.set a x).data b = m.data b := by
  simp [data, set, Function.update_of_ne hb]

@[simp] theorem set_set (m : Memory α) (a : ℕ) (x y : α) : (m.set a x).set a y = m.set a y := by
  simp [set, Function.comp_def]

/-- What is written is what was there. -/
theorem set_eq_self {m : Memory α} {a : ℕ} {x : α} (hx : m.data a = some x) : m.set a x = m := by
  obtain ⟨c, hc, rfl⟩ := Option.map_eq_some_iff.mp hx
  have hcells : Function.update m.cells a (some c) = m.cells := by
    rw [← hc, Function.update_eq_self]
  simp [set, hc, hcells]

@[simp] theorem data_free_self (m : Memory α) (a : ℕ) : (m.free a).data a = none := by
  simp [data, free]

theorem data_free_of_ne (m : Memory α) {a b : ℕ} (hb : b ≠ a) : (m.free a).data b = m.data b := by
  simp [data, free, Function.update_of_ne hb]

@[simp] theorem data_write (m : Memory α) (p b : ℕ) (l : Link) :
    (m.write p l).data b = m.data b := by
  cases l with
  | head => rfl
  | next a =>
    by_cases hb : b = a
    · subst hb
      simp only [data, write, Function.update_self, Option.map_map]
      rfl
    · simp [data, write, Function.update_of_ne hb]

theorem read_set (m : Memory α) (a : ℕ) (x : α) (l : Link) : (m.set a x).read l = m.read l := by
  cases l with
  | head => rfl
  | next b =>
    by_cases hb : b = a
    · subst hb
      simp [read, set, Function.comp_def]
    · simp [read, set, Function.update_of_ne hb]

/-- The contents of a cell do not outlive it. -/
theorem free_write_set (m : Memory α) (a p : ℕ) (x : α) (l : Link) :
    (((m.set a x).write p l).free a) = (m.write p l).free a := by
  cases l with
  | head => simp [free, write, set]
  | next b =>
    by_cases hb : b = a
    · subst hb
      simp [free, write, set]
    · have hcomm := Function.update_comm hb ((m.cells b).map fun c => { c with next := p })
        ((m.cells a).map fun c => { c with data := x }) m.cells
      simp only [free, write, set, Function.update_of_ne hb, ← hcomm, Function.update_idem]

/-- **The walk does not look at the contents** of the cell it takes out. -/
theorem remove_set (m : Memory α) (a : ℕ) (x : α) (fuel : ℕ) (l : Link) :
    (m.set a x).remove a fuel l = m.remove a fuel l := by
  induction fuel generalizing l with
  | zero => rfl
  | succ fuel ih =>
    have hcell : (m.set a x).cells a = (m.cells a).map fun c => { c with data := x } := by
      simp [set]
    simp only [remove, read_set, hcell, ih]
    cases m.cells a with
    | none => rfl
    | some c => simp only [Option.map_some, free_write_set]

end Memory

/-- The cells `as`, one behind the other, from `p` up to the pointer `tail`. -/
def Linked (cells : ℕ → Option (Cell α)) (tail : ℕ) : ℕ → List ℕ → Prop
  | p, [] => p = tail
  | p, a :: as => p = a ∧ a ≠ 0 ∧ ∃ c, cells a = some c ∧ Linked cells tail c.next as

namespace Linked

variable {cells cells' : ℕ → Option (Cell α)} {tail p a : ℕ} {as : List ℕ}

/-- The cells of a list are allocated. -/
theorem exists_cell (h : Linked cells tail p as) (ha : a ∈ as) : ∃ c, cells a = some c := by
  induction as generalizing p with
  | nil => exact absurd ha (by simp)
  | cons b as ih =>
    obtain ⟨-, -, c, hc, hrest⟩ := h
    rcases List.mem_cons.mp ha with rfl | ha
    · exact ⟨c, hc⟩
    · exact ih hrest ha

/-- Cells outside the list do not matter, and neither do the contents of those in it. -/
theorem congr (h : Linked cells tail p as)
    (heq : ∀ a ∈ as, (cells' a).map Cell.next = (cells a).map Cell.next) :
    Linked cells' tail p as := by
  induction as generalizing p with
  | nil => exact h
  | cons b as ih =>
    obtain ⟨rfl, hb, c, hc, hrest⟩ := h
    have hnext := heq p List.mem_cons_self
    rw [hc] at hnext
    obtain ⟨c', hc', hnext⟩ := Option.map_eq_some_iff.mp hnext
    refine ⟨rfl, hb, c', hc', ?_⟩
    rw [hnext]
    exact ih hrest fun a ha => heq a (List.mem_cons_of_mem p ha)

end Linked

/-- The place that points to the cell behind `as`, where `aux` points to the first one. -/
def linkBefore : Link → List ℕ → Link
  | aux, [] => aux
  | _, a :: as => linkBefore (.next a) as

theorem linkBefore_mem (aux : Link) (as : List ℕ) :
    linkBefore aux as = aux ∨ ∃ b ∈ as, linkBefore aux as = .next b := by
  induction as generalizing aux with
  | nil => exact .inl rfl
  | cons a as ih =>
    rcases ih (.next a) with heq | ⟨b, hb, heq⟩
    · exact .inr ⟨a, List.mem_cons_self, heq⟩
    · exact .inr ⟨b, List.mem_cons_of_mem a hb, heq⟩

variable {m : Memory α} {tail p a fuel : ℕ} {as bs : List ℕ} {aux : Link} {c : Cell α}

/-- **Where the walk ends.** -/
theorem remove_eq (hlinked : Linked m.cells tail p (as ++ a :: bs)) (hread : m.read aux = some p)
    (ha : a ∉ as) (hc : m.cells a = some c) (hfuel : as.length < fuel) :
    m.remove a fuel aux = .removed ((m.write c.next (linkBefore aux as)).free a) := by
  induction as generalizing aux p fuel with
  | nil =>
    obtain ⟨rfl, hne, -⟩ := hlinked
    obtain ⟨fuel, rfl⟩ := Nat.exists_eq_succ_of_ne_zero (Nat.ne_of_gt hfuel)
    simp only [Memory.remove, hread, if_neg hne, if_true, hc, linkBefore]
  | cons b as ih =>
    obtain ⟨rfl, hne, d, hd, hrest⟩ := hlinked
    obtain ⟨fuel, rfl⟩ := Nat.exists_eq_succ_of_ne_zero (Nat.ne_of_gt (Nat.zero_lt_of_lt hfuel))
    have hpa : p ≠ a := fun h => ha (by simp [h])
    simp only [Memory.remove, hread, if_neg hne, if_neg hpa, linkBefore]
    exact ih hrest (by simp [Memory.read, hd]) (fun h => ha (List.mem_cons_of_mem p h))
      (Nat.lt_of_succ_lt_succ hfuel)

/-- The place is not in one of the cells. -/
def Outside (aux : Link) (as : List ℕ) : Prop := ∀ b, aux = .next b → b ∉ as

/-- **What the walk leaves**: the same list without the cell, from the same place on. -/
theorem linked_unlink (aux : Link) (hlinked : Linked m.cells tail p (as ++ a :: bs))
    (hread : m.read aux = some p) (hnodup : (as ++ a :: bs).Nodup)
    (hout : Outside aux (as ++ a :: bs)) (hc : m.cells a = some c) :
    ∃ p', ((m.write c.next (linkBefore aux as)).free a).read aux = some p' ∧
      Linked ((m.write c.next (linkBefore aux as)).free a).cells tail p' (as ++ bs) := by
  induction as generalizing aux p with
  | nil =>
    obtain ⟨rfl, -, d, hd, hrest⟩ := hlinked
    obtain rfl : c = d := Option.some.inj (hc.symm.trans hd)
    have hnot := (List.nodup_cons.mp hnodup).1
    refine ⟨c.next, ?_, hrest.congr fun x hx => ?_⟩
    · cases aux with
      | head => rfl
      | next b =>
        have hb : b ≠ p := fun h => hout b rfl (by simp [h])
        obtain ⟨e, he, -⟩ := Option.map_eq_some_iff.mp hread
        simp [linkBefore, Memory.read, Memory.free, Memory.write, Function.update_of_ne hb, he]
    · have hxp : x ≠ p := fun h => hnot (h ▸ hx)
      cases aux with
      | head => simp [linkBefore, Memory.free, Memory.write, Function.update_of_ne hxp]
      | next b =>
        have hxb : x ≠ b := fun h => hout b rfl (by simp [← h, hx])
        simp [linkBefore, Memory.free, Memory.write, Function.update_of_ne hxp,
          Function.update_of_ne hxb]
  | cons b as ih =>
    obtain ⟨rfl, hne, d, hd, hrest⟩ := hlinked
    have hnodup' := List.nodup_cons.mp hnodup
    obtain ⟨p', hread', hlinked'⟩ := ih (.next p) hrest (by simp [Memory.read, hd]) hnodup'.2
      (fun x hx => by rw [← Link.next.inj hx]; exact hnodup'.1)
    -- the place `aux` itself is not written
    have hkept : ((m.write c.next (linkBefore aux (p :: as))).free a).read aux = some p := by
      have hlink : ∃ x ∈ p :: as, linkBefore aux (p :: as) = .next x := by
        rcases linkBefore_mem (.next p) as with heq | ⟨x, hx, heq⟩
        · exact ⟨p, List.mem_cons_self, heq⟩
        · exact ⟨x, List.mem_cons_of_mem p hx, heq⟩
      obtain ⟨x, hx, heq⟩ := hlink
      rw [heq]
      cases aux with
      | head => exact hread
      | next y =>
        have hy := hout y rfl
        have hya : y ≠ a := fun h => hy (by simp [h])
        have hyx : y ≠ x := fun h => hy (List.mem_append_left _ (h ▸ hx))
        simpa [Memory.read, Memory.free, Memory.write, Function.update_of_ne hya,
          Function.update_of_ne hyx] using hread
    obtain ⟨e, he, hnext⟩ := Option.map_eq_some_iff.mp hread'
    exact ⟨p, hkept, rfl, hne, e, he, by rw [hnext]; exact hlinked'⟩

/-- **A cell of the list is found and taken out**, in no more steps than the list has cells,
and the others stay in their order with what they hold. -/
theorem remove_of_linked (hlinked : Linked m.cells tail m.head as) (hnodup : as.Nodup)
    (ha : a ∈ as) :
    ∃ m', (∀ fuel, as.length ≤ fuel → m.remove a fuel .head = .removed m') ∧
      Linked m'.cells tail m'.head (as.erase a) ∧ m'.data a = none ∧
      ∀ b, b ≠ a → m'.data b = m.data b := by
  obtain ⟨pre, post, rfl⟩ := List.append_of_mem ha
  obtain ⟨c, hc⟩ := hlinked.exists_cell ha
  have hpre : a ∉ pre := fun h =>
    (List.nodup_append.mp hnodup).2.2 a h a List.mem_cons_self rfl
  obtain ⟨p', hread, hlinked'⟩ := linked_unlink .head hlinked rfl hnodup
    (fun _ h => absurd h (by simp)) hc
  refine ⟨_, fun fuel hfuel => remove_eq hlinked rfl hpre hc ?_, ?_, Memory.data_free_self _ _,
    fun b hb => ?_⟩
  · rw [List.length_append, List.length_cons] at hfuel
    omega
  · rw [List.erase_append_right _ hpre, List.erase_cons_head]
    rw [← Option.some.inj hread] at hlinked'
    exact hlinked'
  · rw [Memory.data_free_of_ne _ hb, Memory.data_write]

/-- A new cell in front. -/
theorem linked_push (hlinked : Linked m.cells tail m.head as) (ha : a ≠ 0)
    (hfresh : m.cells a = none) (x : α) :
    Linked (m.push a x).cells tail (m.push a x).head (a :: as) := by
  refine ⟨rfl, ha, ⟨x, m.head⟩, Function.update_self _ _ _, hlinked.congr fun b hb => ?_⟩
  have hne : b ≠ a := by
    rintro rfl
    obtain ⟨c, hc⟩ := hlinked.exists_cell hb
    exact absurd (hfresh.symm.trans hc) (by simp)
  simp [Memory.push, Function.update_of_ne hne]

/-- New contents. -/
theorem linked_set (hlinked : Linked m.cells tail m.head as) (a : ℕ) (x : α) :
    Linked (m.set a x).cells tail (m.set a x).head as := by
  refine hlinked.congr fun b _ => ?_
  by_cases hb : b = a
  · subst hb
    simp only [Memory.set, Function.update_self, Option.map_map]
    rfl
  · simp [Memory.set, Function.update_of_ne hb]

end PointerList
end BareHttp
