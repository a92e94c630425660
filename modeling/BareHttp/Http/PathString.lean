import BareHttp.Http.Process

/-!
# The path of a request in memory

Both handlers cut the query off the URL, let `build_path` copy what is left into the array
`path[MAX_PATH]` on their stack, and pass the array on.  `open_safe` skips the first byte of
it, for which the source gives the reason "to skip first `/`", and hands the rest to the
kernel.

The parser does not require a URL to begin with a slash, and two consequences are proved
here.  A URL that begins with `?` leaves an empty string in the array, and `open_safe` then
reads behind its terminator, where nothing has been written (`wellFormed_iff`).  A URL whose
second byte is a slash makes the kernel see an absolute path (`contained_iff`); the filter
on the URL refuses two slashes in a row, so only such a URL can.

The array is a function from positions to bytes, with `none` for a byte that has not been
written.  What the kernel reads there is whatever the stack held.
-/

namespace BareHttp

open Pico

/-! ## The array -/

/-- An array on the stack. -/
abbrev Cells := ℕ → Option UInt8

/-- An array nothing has been written to. -/
def Cells.blank : Cells := fun _ => none

/-- `memcpy(path, s, n)` and `path[n] = '\0'`. -/
def Cells.store (m : Cells) (s : Bytes) : Cells :=
  Buffer.write (Buffer.write m 0 (s.map some)) s.length [some 0]

/-- `build_path`, with the array it writes to; `none` is the return value `-2`. -/
def buildPathCells (url : Bytes) (path : Cells) : Option Cells :=
  if maxPath - 1 < url.length then none
  else if url = [47] then some (path.store (ascii "/index.html"))
  else some (path.store url)

/-- The array holds the path of `buildPath`. -/
theorem buildPathCells_eq (url : Bytes) (path : Cells) :
    buildPathCells url path = (buildPath url).map path.store := by
  unfold buildPathCells buildPath
  split_ifs <;> rfl

/-- A string read from position `i` on, up to its terminator; `none` if a byte is read that
has not been written, or no terminator is found in `fuel` bytes. -/
def Cells.readString (m : Cells) : ℕ → ℕ → Option Bytes
  | 0, _ => none
  | fuel + 1, i =>
    match m i with
    | none => none
    | some c => if c = 0 then some [] else (m.readString fuel (i + 1)).map fun s => c :: s

/-- The bytes the kernel sees where the stack held `stale` before. -/
def Cells.withStale (m : Cells) (stale : ℕ → UInt8) : ℕ → UInt8 := fun i => (m i).getD (stale i)

/-- The string at a position. -/
structure StringAt (mem : ℕ → UInt8) (i : ℕ) (s : Bytes) : Prop where
  bytes : Buffer.slice mem i s.length = s
  noNul : 0 ∉ s
  terminated : mem (i + s.length) = 0

namespace Cells

theorem store_of_lt (m : Cells) (s : Bytes) {i : ℕ} (hi : i < s.length) :
    m.store s i = some (s.get ⟨i, hi⟩) := by
  have hcopied : Buffer.write m 0 (s.map some) i = some (s.get ⟨i, hi⟩) := by
    have h := Buffer.write_at m 0 (s.map some) (j := i) (by rwa [List.length_map])
    rwa [Nat.zero_add, List.getElem_map] at h
  rw [store, Buffer.write_of_lt _ _ hi, hcopied]

theorem store_length (m : Cells) (s : Bytes) : m.store s s.length = some 0 :=
  Buffer.write_at (Buffer.write m 0 (s.map some)) s.length [some 0] (j := 0) (by decide)

theorem store_of_gt (m : Cells) (s : Bytes) {i : ℕ} (hi : s.length < i) : m.store s i = m i := by
  rw [store, Buffer.write_of_ge _ _ (by simpa using Nat.succ_le_of_lt hi),
    Buffer.write_of_ge _ _ (by simpa using Nat.le_of_lt hi)]

/-- **A string is read back** from any position up to its terminator. -/
theorem readString_store (m : Cells) {s : Bytes} (hnul : 0 ∉ s) {fuel i : ℕ} (hi : i ≤ s.length)
    (hfuel : s.length < i + fuel) : (m.store s).readString fuel i = some (s.drop i) := by
  induction fuel generalizing i with
  | zero => omega
  | succ fuel ih =>
    rcases Nat.lt_or_eq_of_le hi with hlt | rfl
    · have hne : s.get ⟨i, hlt⟩ ≠ 0 := fun h0 => hnul (h0 ▸ List.get_mem s ⟨i, hlt⟩)
      simp only [readString, m.store_of_lt s hlt, if_neg hne, ih hlt (by omega), Option.map_some]
      rw [List.drop_eq_getElem_cons hlt]
      rfl
    · simp [readString, store_length]

/-- The kernel sees it as well, whatever the stack held. -/
theorem stringAt_store (m : Cells) {s : Bytes} (hnul : 0 ∉ s) (stale : ℕ → UInt8) {i : ℕ}
    (hi : i ≤ s.length) : StringAt ((m.store s).withStale stale) i (s.drop i) := by
  have hlen : i + (s.drop i).length = s.length := by rw [List.length_drop]; omega
  refine ⟨?_, fun h => hnul (List.mem_of_mem_drop h), ?_⟩
  · apply List.ext_getElem
    · rw [Buffer.length_slice]
    · intro j h₁ h₂
      rw [List.length_drop] at h₂
      have hj : i + j < s.length := by omega
      simp only [Buffer.slice, List.getElem_map, List.getElem_range, List.getElem_drop, withStale,
        m.store_of_lt s hj, Option.getD_some, List.get_eq_getElem]
  · rw [hlen, withStale, store_length, Option.getD_some]

end Cells

/-- There is one string at a position. -/
theorem StringAt.unique {mem : ℕ → UInt8} {i : ℕ} {s t : Bytes} (hs : StringAt mem i s)
    (ht : StringAt mem i t) : s = t := by
  -- the shorter one ends inside the other, which has no terminator there
  have hle : ∀ {s t : Bytes}, StringAt mem i s → StringAt mem i t → ¬ s.length < t.length := by
    intro s t hs ht hlt
    have hzero : t.get ⟨s.length, hlt⟩ = 0 := by
      have hbyte := congrArg (fun l => l[s.length]?) ht.bytes
      simp only [Buffer.slice, List.getElem?_map, List.getElem?_range hlt, Option.map_some,
        List.getElem?_eq_getElem hlt, hs.terminated] at hbyte
      exact (Option.some.inj hbyte).symm
    exact ht.noNul (hzero ▸ List.get_mem t ⟨s.length, hlt⟩)
  have hlen : s.length = t.length :=
    Nat.le_antisymm (Nat.not_lt.mp (hle ht hs)) (Nat.not_lt.mp (hle hs ht))
  rw [← hs.bytes, ← ht.bytes, hlen]

/-! ## The URLs the parser produces -/

/-- A URL of the parser: some bytes, and no space, control byte or `DEL` among them. -/
structure UrlBytes (url : Bytes) : Prop where
  ne_nil : url ≠ []
  visible : ∀ c ∈ url, 32 < c ∧ c ≠ 127

theorem UrlBytes.noNul {url : Bytes} (h : UrlBytes url) : 0 ∉ url :=
  fun hmem => absurd (h.visible 0 hmem).1 (by decide)

/-- The path of a URL is empty where the URL begins with its query. -/
theorem urlPath_eq_nil_iff {url : Bytes} (h : url ≠ []) :
    urlPath url = [] ↔ url.head? = some 63 := by
  obtain ⟨c, url, rfl⟩ := List.exists_cons_of_ne_nil h
  by_cases hc : c = 63 <;> simp [urlPath, hc]

/-- What `build_path` leaves in the array is free of terminators. -/
theorem noNul_of_buildPath {url path : Bytes} (hurl : UrlBytes url)
    (h : buildPath (urlPath url) = some path) : 0 ∉ path := by
  unfold buildPath at h
  split_ifs at h
  · rw [← Option.some.inj h]
    decide
  · rw [← Option.some.inj h]
    exact fun hmem => hurl.noNul ((List.takeWhile_sublist _).subset hmem)

theorem length_lt_of_buildPath {url path : Bytes} (h : buildPath url = some path) :
    path.length < maxPath := by
  unfold buildPath at h
  split_ifs at h with hlong
  · rw [← Option.some.inj h]
    decide
  · rw [← Option.some.inj h]
    simp only [maxPath] at hlong ⊢
    omega

theorem eq_nil_iff_of_buildPath {url path : Bytes} (h : buildPath url = some path) :
    path = [] ↔ url = [] := by
  unfold buildPath at h
  split_ifs at h with hlong hroot
  · rw [← Option.some.inj h, hroot]
    decide
  · rw [Option.some.inj h]

/-! ## What `open_safe` reads -/

/-- **A path string as `open_safe` needs it**: nothing was written outside the array, there
is a string of at least one byte in it, and the string behind its first byte is read without
a byte that has not been written. -/
structure WellFormed (path : Cells) : Prop where
  inside : ∀ i, (path i).isSome = true → i < maxPath
  string : ∃ s, path.readString maxPath 0 = some s ∧ 1 ≤ s.length ∧
    path.readString maxPath 1 = some (s.drop 1)

/-- **The path string is well formed exactly when the URL does not begin with its query.** -/
theorem wellFormed_iff {url : Bytes} {path : Cells} (hurl : UrlBytes url)
    (hbuild : buildPathCells (urlPath url) .blank = some path) :
    WellFormed path ↔ url.head? ≠ some 63 := by
  rw [buildPathCells_eq] at hbuild
  obtain ⟨s, hs, rfl⟩ := Option.map_eq_some_iff.mp hbuild
  have hnul := noNul_of_buildPath hurl hs
  have hlen : s.length < maxPath := length_lt_of_buildPath hs
  have hempty : s = [] ↔ url.head? = some 63 := by
    rw [← urlPath_eq_nil_iff hurl.ne_nil]
    exact eq_nil_iff_of_buildPath hs
  have hread := Cells.readString_store .blank hnul (Nat.zero_le _)
    (show s.length < 0 + maxPath by omega)
  rw [Ne, ← hempty]
  constructor
  · rintro ⟨-, s', hs', hpos, -⟩ rfl
    rw [hread] at hs'
    rw [← Option.some.inj hs'] at hpos
    exact absurd hpos (by decide)
  · intro hne
    have hpos : 1 ≤ s.length := List.length_pos_of_ne_nil hne
    refine ⟨fun i hi => ?_, s, hread, hpos,
      Cells.readString_store .blank hnul hpos (by omega)⟩
    by_contra hge
    rw [Cells.store_of_gt .blank s (by omega)] at hi
    exact absurd hi (by simp [Cells.blank])

/-- A path and a query: the string that is read is the path without its first byte. -/
theorem wellFormed_of_page : ∃ path,
    buildPathCells (urlPath (ascii "/page?q")) .blank = some path ∧ WellFormed path :=
  have hurl : UrlBytes (ascii "/page?q") := ⟨by decide, by decide +kernel⟩
  ⟨_, rfl, (wellFormed_iff hurl rfl).mpr (by decide)⟩

/-- **A URL that is all query.**  The array holds the terminator alone, and `open_safe` reads
the byte behind it. -/
theorem queryOnly_not_wellFormed : UrlBytes (ascii "?a") ∧ ∃ path,
    buildPathCells (urlPath (ascii "?a")) .blank = some path ∧ path.readString maxPath 1 = none ∧
      ¬ WellFormed path := by
  refine ⟨⟨by decide, by decide +kernel⟩, _, rfl, rfl, ?_⟩
  rintro ⟨-, s, hs, hpos, -⟩
  obtain rfl : [] = s := Option.some.inj hs
  exact absurd hpos (by decide)

/-! ## Lexical resolution -/

/-- The components of a path. -/
def components (path : Bytes) : List Bytes := path.splitOn 47

/-- The directories below the root that a list of components leads to, the deepest first;
`none` where it leads out of the root. -/
def resolve : List Bytes → List Bytes → Option (List Bytes)
  | dirs, [] => some dirs
  | dirs, c :: cs =>
    if c = [] ∨ c = ascii "." then resolve dirs cs
    else if c = ascii ".." then
      match dirs with
      | [] => none
      | _ :: dirs => resolve dirs cs
    else resolve (c :: dirs) cs

/-- **A path that stays under the directory it is resolved in**, as far as its text says. -/
structure Contained (path : Bytes) : Prop where
  relative : path.head? ≠ some 47
  noParent : ascii ".." ∉ components path
  stays : (resolve [] (components path)).isSome = true

theorem resolve_isSome {cs : List Bytes} (h : ascii ".." ∉ cs) (dirs : List Bytes) :
    (resolve dirs cs).isSome = true := by
  induction cs generalizing dirs with
  | nil => rfl
  | cons c cs ih =>
    have hc : c ≠ ascii ".." := fun heq => h (by simp [heq])
    have hcs : ascii ".." ∉ cs := fun hmem => h (List.mem_cons_of_mem c hmem)
    simp only [resolve, if_neg hc]
    split_ifs
    · exact ih hcs dirs
    · exact ih hcs (c :: dirs)

/-- A component is a stretch of the path. -/
theorem infix_of_mem_components {path c : Bytes} (h : c ∈ components path) : c <:+: path := by
  have hmem : ∀ {L : List Bytes} (sep : Bytes), c ∈ L → c ∈ L.intersperse sep := by
    intro L sep hc
    induction L with
    | nil => exact absurd hc (by simp)
    | cons x L ih =>
      cases L with
      | nil => exact hc
      | cons y L =>
        rcases List.mem_cons.mp hc with rfl | hc
        · simp
        · simp only [List.intersperse_cons_cons, List.mem_cons]
          exact .inr (.inr (ih hc))
  have hjoin := List.infix_of_mem_flatten (hmem [47] h)
  rwa [show ((components path).intersperse [47]).flatten = path from
    List.intercalate_splitOn 47] at hjoin

/-- Without two dots in a row there is no component of two dots. -/
theorem contained_of_infix {path : Bytes} (hrel : path.head? ≠ some 47)
    (hdots : ¬ [46, 46] <:+: path) : Contained path := by
  have hparent : ascii ".." ∉ components path := fun h => hdots (infix_of_mem_components h)
  exact ⟨hrel, hparent, resolve_isSome hparent []⟩

/-- **What the filter on the URL rules out**: two dots and two slashes in a row. -/
theorem not_infix_of_checkPathTraversal {url : Bytes} (h : checkPathTraversal url = false) :
    ¬ [46, 46] <:+: url ∧ ¬ [47, 47] <:+: url := by
  induction url with
  | nil => decide
  | cons a url ih =>
    cases url with
    | nil => constructor <;> exact fun hinf => absurd hinf.length_le (by simp)
    | cons b url =>
      simp only [checkPathTraversal] at h
      split_ifs at h with hback hdots hslash
      obtain ⟨hd, hs⟩ := ih h
      simp only [List.infix_cons_iff, List.cons_prefix_cons, List.nil_prefix, and_true] at hd hs ⊢
      exact ⟨fun hor => hor.elim (fun heq => hdots ⟨heq.1.symm, heq.2.symm⟩) hd,
        fun hor => hor.elim (fun heq => hslash ⟨heq.1.symm, heq.2.symm⟩) hs⟩

/-! ## Containment -/

/-- The first byte that `open_safe` hands on is a slash where the second byte of the URL
is. -/
theorem head?_drop_of_buildPath {url path : Bytes} (hurl : UrlBytes url)
    (hquery : url.head? ≠ some 63) (h : buildPath (urlPath url) = some path) :
    (path.drop 1).head? = some 47 ↔ url[1]? = some 47 := by
  obtain ⟨a, url, rfl⟩ := List.exists_cons_of_ne_nil hurl.ne_nil
  have ha : a ≠ 63 := fun heq => hquery (by rw [heq, List.head?_cons])
  have hpath : urlPath (a :: url) = a :: urlPath url := by simp [urlPath, ha]
  have hsecond : (urlPath url).head? = some 47 ↔ url[0]? = some 47 := by
    cases url with
    | nil => simp [urlPath]
    | cons b url => by_cases hb : b = 63 <;> simp [urlPath, hb]
  rw [hpath] at h
  unfold buildPath at h
  split_ifs at h with hlong hroot
  · obtain ⟨-, hnil⟩ := List.cons.inj hroot
    rw [← Option.some.inj h, List.getElem?_cons_succ, ← hsecond, hnil]
    decide
  · rw [← Option.some.inj h, List.drop_one, List.tail_cons, List.getElem?_cons_succ, hsecond]

/-- There are no two dots in a row in what it hands on. -/
theorem not_infix_drop_of_buildPath {url path : Bytes} (htrav : checkPathTraversal url = false)
    (h : buildPath (urlPath url) = some path) : ¬ [46, 46] <:+: path.drop 1 := by
  -- the page served for the root passes the filter as well
  have hpassed : ∃ url, checkPathTraversal url = false ∧ path <:+: url := by
    unfold buildPath at h
    split_ifs at h
    · exact ⟨ascii "/index.html", by decide, Option.some.inj h ▸ List.infix_rfl⟩
    · exact ⟨url, htrav, by rw [← Option.some.inj h]; exact (List.takeWhile_prefix _).isInfix⟩
  obtain ⟨url, htrav, hinfix⟩ := hpassed
  exact fun hdots => (not_infix_of_checkPathTraversal htrav).1
    (hdots.trans ((List.drop_suffix 1 path).isInfix.trans hinfix))

/-- **Containment.**  The kernel is handed a string that stays under the root, whatever the
stack held, exactly when the URL does not begin with its query and its second byte is not a
slash. -/
theorem contained_iff {url : Bytes} {path : Cells} (hurl : UrlBytes url)
    (htrav : checkPathTraversal url = false)
    (hbuild : buildPathCells (urlPath url) .blank = some path) :
    (∀ stale s, StringAt (path.withStale stale) 1 s → Contained s) ↔
      url.head? ≠ some 63 ∧ url[1]? ≠ some 47 := by
  rw [buildPathCells_eq] at hbuild
  obtain ⟨p, hp, rfl⟩ := Option.map_eq_some_iff.mp hbuild
  have hnul := noNul_of_buildPath hurl hp
  have hempty : p = [] ↔ url.head? = some 63 := by
    rw [← urlPath_eq_nil_iff hurl.ne_nil]
    exact eq_nil_iff_of_buildPath hp
  by_cases hquery : url.head? = some 63
  · -- the terminator is at position 0, and what is behind it was never written
    refine iff_of_false (fun hall => ?_) (fun h => h.1 hquery)
    obtain rfl := hempty.mpr hquery
    have hslash : StringAt ((Cells.blank.store []).withStale fun i => if i = 1 then 47 else 0) 1
        [47] := ⟨by decide, by decide, by decide⟩
    exact (hall _ _ hslash).relative rfl
  · have hpos : 1 ≤ p.length := List.length_pos_of_ne_nil fun h => hquery (hempty.mp h)
    have hhanded := fun stale => Cells.stringAt_store .blank hnul stale hpos
    have hall : (∀ stale s, StringAt ((Cells.blank.store p).withStale stale) 1 s → Contained s) ↔
        Contained (p.drop 1) :=
      ⟨fun h => h (fun _ => 0) _ (hhanded _),
        fun h stale s hs => hs.unique (hhanded stale) ▸ h⟩
    rw [hall, Ne, Ne, ← head?_drop_of_buildPath hurl hquery hp]
    refine ⟨fun h => ⟨hquery, h.relative⟩, fun h => contained_of_infix h.2 ?_⟩
    exact not_infix_drop_of_buildPath htrav hp

/-- A page in a directory. -/
theorem contained_of_page : ∃ path,
    buildPathCells (urlPath (ascii "/a/b.html")) .blank = some path ∧
      ∀ stale s, StringAt (path.withStale stale) 1 s → Contained s :=
  have hurl : UrlBytes (ascii "/a/b.html") := ⟨by decide, by decide +kernel⟩
  ⟨_, rfl, (contained_iff hurl (by decide) rfl).mpr (by decide)⟩

/-- **A URL without the slash in front.**  The byte that is skipped is another one, and the
kernel sees the absolute path `/etc/passwd`. -/
theorem absolutePath_not_contained : UrlBytes (ascii "x/etc/passwd") ∧
    checkPathTraversal (ascii "x/etc/passwd") = false ∧ ∃ path,
      buildPathCells (urlPath (ascii "x/etc/passwd")) .blank = some path ∧
        (∀ stale, StringAt (path.withStale stale) 1 (ascii "/etc/passwd")) ∧
          ¬ Contained (ascii "/etc/passwd") := by
  have hnul : 0 ∉ ascii "x/etc/passwd" := by decide
  have hurl : UrlBytes (ascii "x/etc/passwd") := ⟨by decide, by decide +kernel⟩
  refine ⟨hurl, by decide, _, rfl, fun stale => ?_, fun h => h.relative rfl⟩
  exact Cells.stringAt_store .blank hnul stale (by decide)

end BareHttp
