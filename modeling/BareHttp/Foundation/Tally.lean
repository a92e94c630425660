import Mathlib.Data.List.Dedup
import Mathlib.Data.List.Count

/-!
# Counting in a list of bounded length

A tally is a list of things with the number of times each was counted.  A thing that is not in it
goes behind the others with the count one, as long as there is room; after that what is not in it
is not counted.

`add` works on the list as it is.  `counts` says what has become of an empty list: its things are
the first `max` different ones, in the order in which they came first, and each has been counted
as often as it came (`add_counts`).
-/

namespace BareHttp
namespace Tally

variable {α : Type} [DecidableEq α]

/-- `p` is counted once more. -/
def add (max : ℕ) (c : List (α × ℕ)) (p : α) : List (α × ℕ) :=
  if p ∈ c.map Prod.fst then c.map fun e => if e.1 = p then (e.1, e.2 + 1) else e
  else if c.length < max then c ++ [(p, 1)]
  else c

/-- The different elements of a list, in the order in which they come first. -/
def firsts (ps : List α) : List α := ps.reverse.dedup.reverse

variable {max : ℕ} {c : List (α × ℕ)} {p : α} {ps : List α}

theorem mem_firsts : p ∈ firsts ps ↔ p ∈ ps := by
  rw [firsts, List.mem_reverse, List.mem_dedup, List.mem_reverse]

theorem nodup_firsts (ps : List α) : (firsts ps).Nodup :=
  List.nodup_reverse.mpr (List.nodup_dedup _)

theorem firsts_append_singleton (ps : List α) (p : α) :
    firsts (ps ++ [p]) = if p ∈ ps then firsts ps else firsts ps ++ [p] := by
  unfold firsts
  rw [List.reverse_append, List.reverse_singleton, List.singleton_append]
  split_ifs with hp
  · rw [List.dedup_cons_of_mem (List.mem_reverse.mpr hp)]
  · rw [List.dedup_cons_of_notMem (by rwa [List.mem_reverse]), List.reverse_cons]

/-- The things in a list and how often they are there. -/
def counts (max : ℕ) (ps : List α) : List (α × ℕ) :=
  ((firsts ps).take max).map fun p => (p, ps.count p)

theorem map_fst_counts (max : ℕ) (ps : List α) :
    (counts max ps).map Prod.fst = (firsts ps).take max := by
  simp [counts, Function.comp_def]

/-- What is in the list came, and was counted. -/
theorem mem_counts {e : α × ℕ} (he : e ∈ counts max ps) : e.1 ∈ ps ∧ e.2 ≠ 0 := by
  obtain ⟨p, hp, rfl⟩ := List.mem_map.mp he
  have hmem : p ∈ ps := mem_firsts.mp (List.mem_of_mem_take hp)
  exact ⟨hmem, Nat.ne_of_gt (List.count_pos_iff.mpr hmem)⟩

theorem nodup_map_fst_counts (max : ℕ) (ps : List α) : ((counts max ps).map Prod.fst).Nodup := by
  rw [map_fst_counts]
  exact (nodup_firsts ps).sublist (List.take_sublist _ _)

theorem length_counts (max : ℕ) (ps : List α) :
    (counts max ps).length = min max (firsts ps).length := by
  rw [counts, List.length_map, List.length_take]

/-- Something that is counted again. -/
theorem add_counts_of_mem (hp : p ∈ (firsts ps).take max) :
    add max (counts max ps) p = counts max (ps ++ [p]) := by
  have hmem : p ∈ ps := mem_firsts.mp (List.mem_of_mem_take hp)
  rw [add, if_pos (by rwa [map_fst_counts]), counts, counts, firsts_append_singleton, if_pos hmem,
    List.map_map]
  refine List.map_congr_left fun q _ => ?_
  rw [Function.comp_apply, List.count_append, List.count_singleton]
  by_cases hqp : q = p
  · simp [hqp]
  · simp [hqp, Ne.symm hqp]

/-- Something that is not in the list yet. -/
theorem add_counts_of_notMem (hp : p ∉ (firsts ps).take max) :
    add max (counts max ps) p = counts max (ps ++ [p]) := by
  -- the others are as often there as before
  have hsame : ∀ q ∈ (firsts ps).take max, (ps ++ [p]).count q = ps.count q := by
    intro q hq
    have hqp : p ≠ q := fun h => hp (h ▸ hq)
    simp [List.count_append, hqp]
  rw [add, if_neg (by rwa [map_fst_counts]), length_counts]
  by_cases hmem : p ∈ ps
  · -- there was no room for it
    have hfull : max ≤ (firsts ps).length := by
      by_contra hlt
      rw [List.take_of_length_le (by omega)] at hp
      exact hp (mem_firsts.mpr hmem)
    rw [if_neg (by omega), counts, counts, firsts_append_singleton, if_pos hmem]
    exact List.map_congr_left fun q hq => by rw [hsame q hq]
  · have hcount : (ps ++ [p]).count p = 1 := by
      rw [List.count_append, List.count_eq_zero_of_not_mem hmem, List.count_singleton_self]
    rw [counts, counts, firsts_append_singleton, if_neg hmem]
    split_ifs with hroom
    · rw [List.take_of_length_le (by omega), List.take_of_length_le (by simp; omega),
        List.map_append, List.map_singleton, hcount]
      rw [List.take_of_length_le (by omega)] at hsame
      exact congrArg (· ++ [(p, 1)]) (List.map_congr_left fun q hq => by rw [hsame q hq])
    · rw [List.take_append_of_le_length (by omega)]
      exact List.map_congr_left fun q hq => by rw [hsame q hq]

/-- **One more.** -/
theorem add_counts (max : ℕ) (ps : List α) (p : α) :
    add max (counts max ps) p = counts max (ps ++ [p]) := by
  by_cases hp : p ∈ (firsts ps).take max
  · exact add_counts_of_mem hp
  · exact add_counts_of_notMem hp

end Tally
end BareHttp
