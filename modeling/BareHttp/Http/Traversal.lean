import BareHttp.Http.PathString

/-!
# The filter on the URL

`check_path_traversal` looks for a backslash, for two dots and for two slashes in a row.  One
loop does all three, and since two of the patterns are two bytes long it stops before the last
position.  No byte behind the URL is read (`checkPathTraversalIn_eq`), and the patterns of two
bytes are all found; a backslash in the last position is not (`filterExact_iff`).
-/

namespace BareHttp

/-! ## The loop -/

/-- `url[i] == c && url[i + 1] == c`; the second byte is read only if the first one is `c`, and
`none` is a byte that is not there. -/
def pairAt (url : Cells) (i : ℕ) (c : UInt8) : Option Bool :=
  (url i).bind fun a => if a = c then (url (i + 1)).map fun b => decide (b = c) else some false

/-- The loop of `check_path_traversal` from position `i` on, with `rounds` positions to go. -/
def traversalLoop (url : Cells) : ℕ → ℕ → Option Bool
  | 0, _ => some false
  | rounds + 1, i =>
    (url i).bind fun a =>
      if a = 92 then some true
      else
        (pairAt url i 46).bind fun dots =>
          if dots = true then some true
          else
            (pairAt url i 47).bind fun slashes =>
              if slashes = true then some true else traversalLoop url rounds (i + 1)

/-- `check_path_traversal`.  The bound is an `int`, and an empty URL makes it negative. -/
def checkPathTraversalIn (url : Cells) (urlSize : Int) : Option Bool :=
  traversalLoop url (urlSize - 1).toNat 0

/-- The bytes of a URL, and nothing else. -/
def Cells.ofBytes (url : Bytes) : Cells := fun i => url[i]?

theorem pairAt_ofBytes {url : Bytes} {i : ℕ} {a b : UInt8} (c : UInt8) (ha : url[i]? = some a)
    (hb : url[i + 1]? = some b) :
    pairAt (.ofBytes url) i c = some (decide (a = c ∧ b = c)) := by
  by_cases h : a = c <;> simp [pairAt, Cells.ofBytes, ha, hb, h]

theorem checkPathTraversal_of_length_le_one {url : Bytes} (h : url.length ≤ 1) :
    checkPathTraversal url = false := by
  match url with
  | [] => rfl
  | [_] => rfl
  | _ :: _ :: _ => exact absurd h (by simp)

/-- From each position on, the loop decides about the rest of the URL. -/
theorem traversalLoop_ofBytes (url : Bytes) {rounds i : ℕ}
    (h : rounds = url.length - i - 1) :
    traversalLoop (.ofBytes url) rounds i = some (checkPathTraversal (url.drop i)) := by
  induction rounds generalizing i with
  | zero =>
    rw [checkPathTraversal_of_length_le_one (by rw [List.length_drop]; omega)]
    rfl
  | succ rounds ih =>
    have hi : i < url.length := by omega
    have hi' : i + 1 < url.length := by omega
    have ha := List.getElem?_eq_getElem hi
    have hb := List.getElem?_eq_getElem hi'
    have hdrop : url.drop i = url[i] :: url[i + 1] :: url.drop (i + 1 + 1) := by
      rw [List.drop_eq_getElem_cons hi, List.drop_eq_getElem_cons hi']
    have hrest := ih (i := i + 1) (by omega)
    rw [List.drop_eq_getElem_cons hi'] at hrest
    rw [hdrop]
    simp only [traversalLoop, pairAt_ofBytes _ ha hb, hrest, checkPathTraversal,
      Cells.ofBytes, ha, Option.bind_some, decide_eq_true_eq]
    split_ifs <;> rfl

/-- **No byte outside the URL is read**, and the result is that of the function on lists. -/
theorem checkPathTraversalIn_eq (url : Bytes) :
    checkPathTraversalIn (.ofBytes url) url.length = some (checkPathTraversal url) :=
  traversalLoop_ofBytes url (by omega)

/-! ## What it finds -/

/-- A URL that the filter is there to refuse. -/
def Suspicious (url : Bytes) : Prop := 92 ∈ url ∨ [46, 46] <:+: url ∨ [47, 47] <:+: url

instance (url : Bytes) : Decidable (Suspicious url) :=
  inferInstanceAs (Decidable (_ ∨ _ ∨ _))

/-- Two equal bytes at the front, or further on. -/
theorem pair_infix_cons_cons (a b c : UInt8) (url : Bytes) :
    [c, c] <:+: a :: b :: url ↔ (a = c ∧ b = c) ∨ [c, c] <:+: b :: url := by
  rw [List.infix_cons_iff]
  simp only [List.cons_prefix_cons, List.nil_prefix, and_true, eq_comm]

/-- **What `check_path_traversal` finds**: all of it, but a backslash only in front of the last
position. -/
theorem checkPathTraversal_iff (url : Bytes) :
    checkPathTraversal url = true ↔
      92 ∈ url.dropLast ∨ [46, 46] <:+: url ∨ [47, 47] <:+: url := by
  match url with
  | [] => decide
  | [a] =>
    refine iff_of_false (by simp [checkPathTraversal]) ?_
    rintro (h | h | h)
    · exact absurd h (by simp)
    · exact absurd h.length_le (by simp)
    · exact absurd h.length_le (by simp)
  | a :: b :: url =>
    have ih := checkPathTraversal_iff (b :: url)
    rw [pair_infix_cons_cons, pair_infix_cons_cons, List.dropLast_cons_cons, List.mem_cons]
    simp only [checkPathTraversal]
    split_ifs with hback hdots hslashes
    · simp [hback]
    · simp [hdots]
    · simp [hslashes]
    · have hne : ¬ (92 : UInt8) = a := fun h => hback h.symm
      rw [ih]
      simp only [hdots, hslashes, hne, false_or]

/-- A pattern of two bytes that does not begin with the last byte lies in front of it. -/
theorem pair_infix_concat {c d : UInt8} (h : c ≠ d) (url : Bytes) :
    [c, c] <:+: url ++ [d] ↔ [c, c] <:+: url := by
  refine ⟨?_, fun hinf => hinf.trans (List.prefix_append url [d]).isInfix⟩
  rw [List.infix_concat_iff]
  rintro (hsuf | hinf)
  · have hlast := hsuf.getLast (by simp)
    rw [List.getLast_append_singleton] at hlast
    exact absurd hlast.symm (by simpa using h.symm)
  · exact hinf

/-- **The filter is exact on a URL**: it reads nothing else, and refuses the URL if and only if
it is to be refused. -/
def FilterExact (url : Bytes) : Prop :=
  ∃ refused, checkPathTraversalIn (.ofBytes url) url.length = some refused ∧
    (refused = true ↔ Suspicious url)

/-- **The filter is exact but for the last position**: where the last byte is a backslash, it
takes something in front of it to have the URL refused. -/
theorem filterExact_iff (url : Bytes) :
    FilterExact url ↔ (url.getLast? = some 92 → Suspicious url.dropLast) := by
  have hexact : FilterExact url ↔ (checkPathTraversal url = true ↔ Suspicious url) := by
    unfold FilterExact
    rw [checkPathTraversalIn_eq]
    simp
  rw [hexact, checkPathTraversal_iff, Suspicious, Suspicious]
  rcases List.eq_nil_or_concat url with rfl | ⟨front, last, rfl⟩
  · decide
  · rw [List.concat_eq_append, List.dropLast_concat, List.getLast?_concat, Option.some_inj,
      List.mem_append, List.mem_singleton]
    by_cases hlast : last = 92
    · have hdots : (46 : UInt8) ≠ last := by rw [hlast]; decide
      have hslashes : (47 : UInt8) ≠ last := by rw [hlast]; decide
      rw [pair_infix_concat hdots, pair_infix_concat hslashes]
      simp only [hlast, or_true, true_or, iff_true, true_implies]
    · have hne : ¬ (92 : UInt8) = last := fun h => hlast h.symm
      simp only [hne, or_false, hlast, false_implies]

/-- **A backslash at the end.**  The URL is one that the parser hands on, and it is let
through. -/
theorem trailingBackslash_not_filterExact :
    UrlBytes (ascii "/a\\") ∧ Suspicious (ascii "/a\\") ∧
      checkPathTraversalIn (.ofBytes (ascii "/a\\")) (ascii "/a\\").length = some false ∧
        ¬ FilterExact (ascii "/a\\") := by
  have hpassed : checkPathTraversalIn (.ofBytes (ascii "/a\\")) (ascii "/a\\").length =
      some false := by decide
  have hsus : Suspicious (ascii "/a\\") := .inl (by decide)
  refine ⟨⟨by decide, by decide +kernel⟩, hsus, hpassed, ?_⟩
  rintro ⟨refused, hrefused, hiff⟩
  rw [hpassed] at hrefused
  exact absurd (hiff.mpr hsus) (by simp [← Option.some.inj hrefused])

end BareHttp
