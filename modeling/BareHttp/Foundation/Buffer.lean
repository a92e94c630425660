import Mathlib.Data.List.Basic
import Mathlib.Tactic.Common

/-!
# Fixed buffers

A buffer is a function from positions to cells: `write` stores a run of cells at
an offset and `slice` reads one back.  Capacity is not part of the type.  The
code carries its bounds in separate counters, and the point of several results
is whether those counters keep every `write` inside the array, so the bound has
to be a statement and not a typing rule.

What arrives for a buffer comes in pieces; `leftover` is what is still to be read after
a read that had room for only a part of the first one.  A receive loop that reads until a
number of cells is there is `fill`: it stops at the first end of a piece that is not before
that number, or where the buffer is full (`StopsAt`), and to stop on the way makes no
difference (`fill_fill`).
-/

namespace BareHttp
namespace Buffer

variable {α : Type}

/-- The cells `xs` stored from position `off` on. -/
def write (m : ℕ → α) (off : ℕ) (xs : List α) : ℕ → α := fun i =>
  if i < off then m i
  else
    match xs[i - off]? with
    | some x => x
    | none => m i

/-- The `len` cells from position `off` on. -/
def slice (m : ℕ → α) (off len : ℕ) : List α :=
  (List.range len).map fun i => m (off + i)

@[simp] theorem length_slice (m : ℕ → α) (off len : ℕ) : (slice m off len).length = len := by
  simp [slice]

@[simp] theorem slice_zero (m : ℕ → α) (off : ℕ) : slice m off 0 = [] := rfl

theorem write_of_lt (m : ℕ → α) {off i : ℕ} (xs : List α) (h : i < off) :
    write m off xs i = m i := by
  simp [write, h]

theorem write_of_ge (m : ℕ → α) {off i : ℕ} (xs : List α) (h : off + xs.length ≤ i) :
    write m off xs i = m i := by
  have hnone : xs[i - off]? = none := by
    rw [List.getElem?_eq_none_iff]
    omega
  simp only [write, hnone, ite_self]

theorem write_at (m : ℕ → α) (off : ℕ) (xs : List α) {j : ℕ} (h : j < xs.length) :
    write m off xs (off + j) = xs[j] := by
  have hsome : xs[off + j - off]? = some xs[j] := by
    rw [Nat.add_sub_cancel_left]
    exact List.getElem?_eq_getElem h
  have hnot : ¬ off + j < off := by omega
  simp only [write, if_neg hnot, hsome]

/-- A slice splits at any interior position. -/
theorem slice_add (m : ℕ → α) (off a b : ℕ) :
    slice m off (a + b) = slice m off a ++ slice m (off + a) b := by
  simp only [slice, List.range_add, List.map_append, List.map_map]
  congr 1
  apply List.map_congr_left
  intro i _
  simp [Nat.add_assoc]

theorem slice_succ (m : ℕ → α) (off len : ℕ) :
    slice m off (len + 1) = m off :: slice m (off + 1) len := by
  rw [Nat.add_comm, slice_add]
  rfl

/-- A slice depends on its cells only. -/
theorem slice_congr {m m' : ℕ → α} {off len : ℕ} (h : ∀ i, off ≤ i → i < off + len → m i = m' i) :
    slice m off len = slice m' off len := by
  apply List.map_congr_left
  intro i hi
  rw [List.mem_range] at hi
  exact h _ (by omega) (by omega)

/-- A write leaves the cells before it alone. -/
theorem slice_write_before (m : ℕ → α) {off len : ℕ} (xs : List α) {pos : ℕ}
    (h : off + len ≤ pos) : slice (write m pos xs) off len = slice m off len := by
  apply List.map_congr_left
  intro i hi
  rw [List.mem_range] at hi
  exact write_of_lt m xs (by omega)

/-- Reading back what was written. -/
theorem slice_write_self (m : ℕ → α) (off : ℕ) (xs : List α) :
    slice (write m off xs) off xs.length = xs := by
  apply List.ext_getElem
  · rw [length_slice]
  · intro i h₁ h₂
    simp only [slice, List.getElem_map, List.getElem_range]
    exact write_at m off xs h₂

/-- **Appending at the fill level appends to the contents.**  This is the step of
every receive loop: the cells before the write are kept, and the written run
follows them without a gap. -/
theorem slice_write_append (m : ℕ → α) (n : ℕ) (xs : List α) :
    slice (write m n xs) 0 (n + xs.length) = slice m 0 n ++ xs := by
  rw [slice_add, slice_write_before m xs (by omega), Nat.zero_add, slice_write_self]

/-- A slice of a constant stretch is constant. -/
theorem slice_eq_replicate {m : ℕ → α} {off len : ℕ} {a : α}
    (h : ∀ i, off ≤ i → m i = a) : slice m off len = List.replicate len a := by
  rw [List.eq_replicate_iff]
  refine ⟨length_slice m off len, ?_⟩
  intro b hb
  simp only [slice, List.mem_map, List.mem_range] at hb
  obtain ⟨i, -, rfl⟩ := hb
  exact h _ (by omega)

/-- The pieces left after a read of at most `room` cells of the piece `p`. -/
def leftover (room : ℕ) (p : List α) (ps : List (List α)) : List (List α) :=
  if p.length ≤ room then ps else p.drop room :: ps

theorem flatten_leftover (room : ℕ) (p : List α) (ps : List (List α)) :
    p.take room ++ (leftover room p ps).flatten = p ++ ps.flatten := by
  unfold leftover
  split_ifs with h
  · rw [List.take_of_length_le h]
  · rw [List.flatten_cons, ← List.append_assoc, List.take_append_drop]

theorem ne_nil_of_mem_leftover {room : ℕ} {p : List α} {ps : List (List α)}
    (hne : ∀ q ∈ ps, q ≠ []) {q : List α} (hq : q ∈ leftover room p ps) : q ≠ [] := by
  unfold leftover at hq
  split_ifs at hq with h
  · exact hne q hq
  · rcases List.mem_cons.1 hq with rfl | hq
    · intro h0
      have := congrArg List.length h0
      rw [List.length_drop, List.length_nil] at this
      omega
    · exact hne q hq

/-! ## Receive loops -/

/-- Pieces are read, each as far as there is room, until `target` cells are there: what the
buffer then holds, and the pieces that are left. -/
def fill (capacity target : ℕ) : List α → List (List α) → List α × List (List α)
  | buff, [] => (buff, [])
  | buff, p :: ps =>
    if target ≤ buff.length then (buff, p :: ps)
    else if p.length ≤ capacity - buff.length then fill capacity target (buff ++ p) ps
    else (buff ++ p.take (capacity - buff.length), p.drop (capacity - buff.length) :: ps)

section Fill

variable {capacity target : ℕ} {buff : List α} {ps : List (List α)}

theorem fill_of_le (h : target ≤ buff.length) : fill capacity target buff ps = (buff, ps) := by
  cases ps with
  | nil => rfl
  | cons p ps => simp only [fill, if_pos h]

/-- Nothing is lost. -/
theorem fill_append :
    (fill capacity target buff ps).1 ++ (fill capacity target buff ps).2.flatten =
      buff ++ ps.flatten := by
  induction ps generalizing buff with
  | nil => rfl
  | cons p ps ih =>
    simp only [fill]
    split_ifs
    · rfl
    · rw [ih, List.append_assoc, List.flatten_cons]
    · rw [List.flatten_cons, List.flatten_cons, List.append_assoc, ← List.append_assoc (p.take _),
        List.take_append_drop]

theorem length_fill_le (h : buff.length ≤ capacity) :
    (fill capacity target buff ps).1.length ≤ capacity := by
  induction ps generalizing buff with
  | nil => exact h
  | cons p ps ih =>
    simp only [fill]
    split_ifs
    · exact h
    · exact ih (by rw [List.length_append]; omega)
    · simp only [List.length_append, List.length_take]
      omega

/-- What is left are pieces. -/
theorem ne_nil_of_mem_fill (hne : ∀ q ∈ ps, q ≠ []) {q : List α}
    (hq : q ∈ (fill capacity target buff ps).2) : q ≠ [] := by
  induction ps generalizing buff with
  | nil => exact absurd hq (by simp [fill])
  | cons p ps ih =>
    simp only [fill] at hq
    split_ifs at hq with hdone hroom
    · exact hne q hq
    · exact ih (fun q hq => hne q (List.mem_cons_of_mem p hq)) hq
    · rcases List.mem_cons.mp hq with rfl | hq
      · rw [Ne, List.drop_eq_nil_iff]
        exact hroom
      · exact hne q (List.mem_cons_of_mem p hq)

/-- The cells are there if that many arrive. -/
theorem le_length_fill (hcap : target ≤ capacity)
    (harrives : target ≤ (buff ++ ps.flatten).length) :
    target ≤ (fill capacity target buff ps).1.length := by
  induction ps generalizing buff with
  | nil => simpa [fill] using harrives
  | cons p ps ih =>
    simp only [fill]
    split_ifs with hdone hroom
    · exact hdone
    · exact ih (by simpa [List.flatten_cons, Nat.add_assoc] using harrives)
    · simp only [List.length_append, List.length_take]
      omega

/-- **Two loops, one behind the other, are one.** -/
theorem fill_fill {target' : ℕ} (hle : target ≤ target') (hcap : target' ≤ capacity) :
    fill capacity target' (fill capacity target buff ps).1 (fill capacity target buff ps).2 =
      fill capacity target' buff ps := by
  induction ps generalizing buff with
  | nil => rfl
  | cons p ps ih =>
    by_cases hdone : target ≤ buff.length
    · rw [fill_of_le hdone]
    · have hdone' : ¬ target' ≤ buff.length := by omega
      simp only [fill, if_neg hdone, if_neg hdone']
      split_ifs with hroom
      · exact ih
      · -- the buffer is full, so the second loop does nothing
        exact fill_of_le (by simp only [List.length_append, List.length_take]; omega)

/-- What a loop has read is the beginning of what arrives. -/
theorem fill_eq_take :
    (fill capacity target buff ps).1 =
      (buff ++ ps.flatten).take (fill capacity target buff ps).1.length :=
  List.prefix_iff_eq_take.mp ⟨_, fill_append⟩

/-- A loop that waits for `target` cells and starts with `start` of them stops at `stop`: the
first end of a piece that is not before `target`, or the end of the buffer. -/
structure StopsAt (capacity target start : ℕ) (ps : List (List α)) (stop : ℕ) : Prop where
  target_le : target ≤ stop
  le_capacity : stop ≤ capacity
  isEnd : (∃ k, start + (ps.take k).flatten.length = stop) ∨ stop = capacity
  le_end : ∀ k, target ≤ start + (ps.take k).flatten.length →
    stop ≤ start + (ps.take k).flatten.length

namespace StopsAt

variable {start stop stop' : ℕ}

theorem le (h : StopsAt capacity target start ps stop)
    (h' : StopsAt capacity target start ps stop') : stop ≤ stop' := by
  rcases h'.isEnd with ⟨k, hk⟩ | hfull
  · rw [← hk]
    exact h.le_end k (hk ▸ h'.target_le)
  · exact hfull ▸ h.le_capacity

theorem unique (h : StopsAt capacity target start ps stop)
    (h' : StopsAt capacity target start ps stop') : stop = stop' :=
  Nat.le_antisymm (h.le h') (h'.le h)

/-- To stop at the very number of cells, a piece has to end there. -/
theorem self_iff (hcap : target ≤ capacity) :
    StopsAt capacity target start ps target ↔
      (∃ k, start + (ps.take k).flatten.length = target) ∨ target = capacity :=
  ⟨isEnd, fun h => ⟨Nat.le_refl _, hcap, h, fun _ => id⟩⟩

/-- A piece that ends before the loop can stop. -/
theorem cons {p : List α} (hlt : start < target)
    (h : StopsAt capacity target (start + p.length) ps stop) :
    StopsAt capacity target start (p :: ps) stop := by
  have hends : ∀ k, start + ((p :: ps).take (k + 1)).flatten.length =
      start + p.length + (ps.take k).flatten.length := by
    intro k
    rw [List.take_succ_cons, List.flatten_cons, List.length_append, Nat.add_assoc]
  refine ⟨h.target_le, h.le_capacity, h.isEnd.imp_left ?_, fun k hk => ?_⟩
  · rintro ⟨k, hk⟩
    exact ⟨k + 1, (hends k).trans hk⟩
  · cases k with
    | zero => exact absurd hk (Nat.not_le.mpr hlt)
    | succ k =>
      rw [hends] at hk ⊢
      exact h.le_end k hk

end StopsAt

/-- **Where a loop stops that finds what it waits for.** -/
theorem stopsAt_fill (hcap : target ≤ capacity) (hbuff : buff.length ≤ capacity)
    (harrives : target ≤ (buff ++ ps.flatten).length) :
    StopsAt capacity target buff.length ps (fill capacity target buff ps).1.length := by
  induction ps generalizing buff with
  | nil =>
    rw [List.flatten_nil, List.append_nil] at harrives
    exact ⟨harrives, hbuff, .inl ⟨0, rfl⟩, fun k _ => Nat.le_add_right _ _⟩
  | cons p ps ih =>
    by_cases hdone : target ≤ buff.length
    · rw [fill_of_le hdone]
      exact ⟨hdone, hbuff, .inl ⟨0, rfl⟩, fun k _ => Nat.le_add_right _ _⟩
    · simp only [fill, if_neg hdone]
      split_ifs with hroom
      · have hread : (buff ++ p).length = buff.length + p.length := List.length_append
        have hnext := @ih (buff ++ p) (by omega) (by simpa [List.flatten_cons] using harrives)
        rw [hread] at hnext
        exact hnext.cons (Nat.lt_of_not_le hdone)
      · -- the piece goes past the end of the buffer
        have hfull : (buff ++ p.take (capacity - buff.length)).length = capacity := by
          rw [List.length_append, List.length_take]
          omega
        rw [hfull]
        refine ⟨hcap, Nat.le_refl _, .inr rfl, fun k hk => ?_⟩
        cases k with
        | zero => exact absurd hk hdone
        | succ k =>
          rw [List.take_succ_cons, List.flatten_cons, List.length_append]
          omega

theorem length_fill_eq_iff (hcap : target ≤ capacity) (hbuff : buff.length ≤ capacity)
    (harrives : target ≤ (buff ++ ps.flatten).length) {stop : ℕ} :
    (fill capacity target buff ps).1.length = stop ↔
      StopsAt capacity target buff.length ps stop :=
  ⟨fun h => h ▸ stopsAt_fill hcap hbuff harrives,
    fun h => (stopsAt_fill hcap hbuff harrives).unique h⟩

/-- What a loop has read behind the first `size` cells, in terms of what arrives. -/
theorem drop_fill_eq_iff (hcap : target ≤ capacity) (hbuff : buff.length ≤ capacity)
    (harrives : target ≤ (buff ++ ps.flatten).length) {size : ℕ} (hsize : size ≤ target)
    {xs : List α} :
    (fill capacity target buff ps).1.drop size = xs ↔
      StopsAt capacity target buff.length ps (size + xs.length) ∧
        ((buff ++ ps.flatten).drop size).take xs.length = xs := by
  rw [← length_fill_eq_iff hcap hbuff harrives]
  have hread := @fill_eq_take _ capacity target buff ps
  have hreached := le_length_fill hcap harrives
  generalize (fill capacity target buff ps).1 = read at *
  constructor
  · rintro rfl
    rw [List.length_drop]
    refine ⟨by omega, ?_⟩
    conv_rhs => rw [hread]
    exact List.drop_take.symm
  · rintro ⟨hlen, hxs⟩
    rw [hread, hlen, List.drop_take, Nat.add_sub_cancel_left]
    exact hxs

end Fill

end Buffer
end BareHttp
