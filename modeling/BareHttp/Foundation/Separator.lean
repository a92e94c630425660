import Mathlib.Data.List.Infix

/-!
# The first and the last separator

A text in which a separator does not stand is found again in front of the first one
(`eq_of_first`).

`rsplit sep s` cuts `s` where `sep` stands for the last time and leaves it out.  What is put
together with a separator comes out of it again, unless the separator stands across the seam or
behind it (`rsplit_append`); and so are lines (`splitOn_lines`).
-/

namespace BareHttp
namespace Separator

variable {α : Type} {sep s a b p q l : List α}

/-- The first separator of a text is not behind another one. -/
theorem length_le_of_first (hne : sep ≠ []) (hq : ¬ sep <:+: q ++ sep.dropLast)
    (h : p ++ sep <+: l) (h' : q ++ sep <+: l) : q.length ≤ p.length := by
  by_contra hlt
  refine hq (List.IsInfix.trans (List.suffix_append p sep).isInfix (List.IsPrefix.isInfix ?_))
  have hpos := List.length_pos_of_ne_nil hne
  have hcut : q ++ sep.dropLast <+: l :=
    ((List.prefix_append_right_inj q).mpr (List.dropLast_prefix sep)).trans h'
  refine List.prefix_of_prefix_length_le h hcut ?_
  rw [List.length_append, List.length_append, List.length_dropLast]
  omega

/-- **The first separator decides** what is in front of it. -/
theorem eq_of_first (hne : sep ≠ []) (hp : ¬ sep <:+: p ++ sep.dropLast)
    (hq : ¬ sep <:+: q ++ sep.dropLast) (h : p ++ sep <+: l) (h' : q ++ sep <+: l) : p = q := by
  have hlen : p.length = q.length :=
    Nat.le_antisymm (length_le_of_first hne hp h' h) (length_le_of_first hne hq h h')
  exact (List.prefix_of_prefix_length_le ((List.prefix_append p sep).trans h)
    ((List.prefix_append q sep).trans h') (Nat.le_of_eq hlen)).eq_of_length hlen

/-- **Lines are read back**, if none of them has a line end in it. -/
theorem splitOn_lines [BEq α] [LawfulBEq α] {x : α} {texts : List (List α)}
    (h : ∀ text ∈ texts, x ∉ text) :
    (texts.map (· ++ [x])).flatten.splitOn x = texts ++ [[]] := by
  induction texts with
  | nil => rfl
  | cons text texts ih =>
    obtain ⟨htext, hrest⟩ := List.forall_mem_cons.mp h
    rw [List.map_cons, List.flatten_cons, List.append_assoc, List.singleton_append,
      List.splitOn_append_cons_self_of_not_mem htext, ih hrest, List.cons_append]

variable [DecidableEq α]

/-- The parts in front of and behind the last `sep`, if there is one. -/
def rsplit (sep : List α) : List α → Option (List α × List α)
  | [] => none
  | c :: s =>
    match rsplit sep s with
    | some (a, b) => some (c :: a, b)
    | none => if sep <+: c :: s then some ([], (c :: s).drop sep.length) else none

theorem rsplit_eq_none (h : ¬ sep <:+: s) : rsplit sep s = none := by
  induction s with
  | nil => rfl
  | cons c s ih =>
    rw [List.infix_cons_iff, not_or] at h
    rw [rsplit, ih h.2, if_neg h.1]

/-- **The last separator is the one between the parts.** -/
theorem rsplit_append (hne : sep ≠ []) (h : ¬ sep <:+: sep.tail ++ b) :
    rsplit sep (a ++ (sep ++ b)) = some (a, b) := by
  induction a with
  | nil =>
    obtain ⟨c, t, rfl⟩ := List.exists_cons_of_ne_nil hne
    have hrest : rsplit (c :: t) (t ++ b) = none := rsplit_eq_none h
    simp [rsplit, hrest]
  | cons c a ih => rw [List.cons_append, rsplit, ih]

end Separator
end BareHttp
