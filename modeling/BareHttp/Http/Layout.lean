import BareHttp.Foundation.ByteMemory
import BareHttp.Http.Request
import BareHttp.Parser.OutParams

/-!
# The request as a record in memory

`http_parse_request` hands the fields of `http_request` to a parser that asks for pointers to
`size_t`, where three of them are `int`.  On a machine with pointers and `size_t` of eight bytes
and `int` of four, low byte first, the parser then reads and writes four bytes more than the
field has:

* behind `method_size` and behind `num_headers` these are padding,
* behind `url_size` they are `version`.

The parser is run here over the bytes of the record (`struct`) and over variables of their own
(`separate`), and the two runs are compared.  Writing the length of the path destroys the
version, and writing the version the high half of the length; but the parser tests the length
before it writes the version, and a length below 2^31 is in the low half.  So both are right
in the end, for every buffer, as long as no header is stored behind the array.  How many of its
low bytes each field still has is followed through the run (`after`, `Agree`).

That no header is stored behind the array depends on the limit, and the limit is read from
`num_headers` and the padding behind it before the parser has written there.  `http_parse_request`
sets the field alone.  The padding is zero in memory from `calloc`; in the request of
`thread_function`, which is on the stack, it is what was there.
-/

namespace BareHttp
namespace Layout

open Pico ByteMemory

/-- The offsets of the fields of a record, given their sizes and alignments, and its end. -/
def offsets : ℕ → List (ℕ × ℕ) → List ℕ
  | pos, [] => [pos]
  | pos, (size, align) :: fields =>
    let start := (pos + align - 1) / align * align
    start :: offsets (start + size) fields

/-- The fields of `http_request`: `method`, `method_size`, `url`, `url_size`, `version`,
`headers`, `num_headers`, `body`, `body_size`. -/
def requestFields : List (ℕ × ℕ) :=
  [(8, 8), (4, 4), (8, 8), (4, 4), (4, 4), (32 * maxHeaders, 8), (4, 4), (8, 8), (4, 4)]

/-- Where an out-parameter is in `http_request`. -/
def offset : Slot → ℕ
  | .method => 0
  | .methodLen => 8
  | .path => 16
  | .pathLen => 24
  | .minorVersion => 28
  | .name i => 32 + 32 * i
  | .nameLen i => 32 + 32 * i + 8
  | .value i => 32 + 32 * i + 16
  | .valueLen i => 32 + 32 * i + 24
  | .numHeaders => 1632

/-- Where the field `body` is. -/
def bodyOffset : ℕ := 1640

example : offsets 0 requestFields =
    [offset .method, offset .methodLen, offset .path, offset .pathLen, offset .minorVersion,
      offset (.name 0), offset .numHeaders, bodyOffset, 1648, 1652] := by decide

/-- What the parser takes an out-parameter for: the version is an `int`, the others are
pointers or of type `size_t`. -/
def width : Slot → ℕ
  | .minorVersion => 4
  | _ => 8

/-- The out-parameters in the bytes of `http_request`. -/
def struct : Store (ℕ → UInt8) where
  read m b := load m (offset b) (width b)
  write m b x := store m (offset b) (width b) x

/-- The out-parameters in variables of the right types. -/
def separate : Store (Slot → ℕ) where
  read v b := v b % 256 ^ width b
  write v b x := Function.update v b x

/-- The entry of the header array is inside. -/
def Inside : Slot → Prop
  | .name i | .nameLen i | .value i | .valueLen i => i < maxHeaders
  | _ => True

variable {m m₀ : ℕ → UInt8} {v : Slot → ℕ} {a b : Slot} {valid : Slot → ℕ} {k n x : ℕ}

/-- **The fields do not overlap**, except for the two. -/
theorem disjoint_of_inside (ha : Inside a) (hb : Inside b) (hne : a ≠ b)
    (hpath : ¬ (a = .pathLen ∧ b = .minorVersion))
    (hversion : ¬ (a = .minorVersion ∧ b = .pathLen)) :
    offset a + width a ≤ offset b ∨ offset b + width b ≤ offset a := by
  cases a <;> cases b <;> simp [offset, width, Inside, maxHeaders] at * <;> omega

/-- Nothing inside reaches the body. -/
theorem offset_add_width_le (ha : Inside a) : offset a + width a ≤ bodyOffset := by
  cases a <;> simp [offset, width, bodyOffset, Inside, maxHeaders] at * <;> omega

/-! ## How much of a field is left -/

/-- How many low bytes of each field are right when `a` has been written. -/
def after (a : Slot) (valid : Slot → ℕ) (b : Slot) : ℕ :=
  if b = a then width a
  else if a = .pathLen ∧ b = .minorVersion then 0
  else if a = .minorVersion ∧ b = .pathLen then min (valid b) 4
  else valid b

/-- The fields have no more than their bytes, and entries outside the array none. -/
def Proper (valid : Slot → ℕ) : Prop := ∀ b, valid b ≤ width b ∧ (valid b ≠ 0 → Inside b)

/-- The bytes of the record are those of the variables, as far as they are right. -/
def Agree (valid : Slot → ℕ) (m : ℕ → UInt8) (v : Slot → ℕ) : Prop :=
  ∀ b, load m (offset b) (valid b) = v b % 256 ^ valid b

theorem Proper.after (h : Proper valid) (ha : Inside a) : Proper (after a valid) := by
  intro b
  unfold Layout.after
  split_ifs with hba
  · subst hba
    exact ⟨Nat.le_refl _, fun _ => ha⟩
  · exact ⟨Nat.zero_le _, fun hne => absurd rfl hne⟩
  · refine ⟨(Nat.min_le_left _ _).trans (h b).1, fun hne => (h b).2 fun hzero => hne ?_⟩
    rw [hzero, Nat.zero_min]
  · exact h b

/-- **One write.** -/
theorem Agree.write (h : Agree valid m v) (hproper : Proper valid) (ha : Inside a) (x : ℕ) :
    Agree (after a valid) (struct.write m a x) (separate.write v a x) := by
  intro b
  simp only [struct, separate]
  by_cases hba : b = a
  · subst hba
    rw [after, if_pos rfl, load_store _ _ _ (Nat.le_refl _), Function.update_self]
  · rw [Function.update_of_ne hba, after, if_neg hba]
    split_ifs with hpath hversion
    · simp [load, Nat.mod_one]
    · -- the low half of the length is in front of the version
      obtain ⟨rfl, rfl⟩ := hversion
      have hlow : min (valid .pathLen) 4 ≤ 4 := Nat.min_le_right _ _
      rw [load_store_of_disjoint _ _ (.inr (by simp only [offset]; omega)),
        load_of_le _ _ (Nat.min_le_left _ _), h, Nat.mod_mod_of_dvd]
      exact Nat.pow_dvd_pow 256 (Nat.min_le_left _ _)
    · by_cases hzero : valid b = 0
      · simp [hzero, load, Nat.mod_one]
      · have hdisjoint := disjoint_of_inside ha ((hproper b).2 hzero) (Ne.symm hba) hpath hversion
        have hle := (hproper b).1
        rw [load_store_of_disjoint _ _ (by omega), h]

/-- What can be read. -/
theorem Agree.read (h : Agree valid m v) (hb : valid b = width b) :
    struct.read m b = separate.read v b := by
  simp only [struct, separate]
  rw [← hb, h]

/-- The entries of the array, as far as it goes. -/
def entries (i : ℕ) : ℕ := if i < maxHeaders then 8 else 0

/-- The header array and the count are right, and so much of the other fields. -/
def fields (others path version : ℕ) : Slot → ℕ
  | .pathLen => path
  | .minorVersion => version
  | .numHeaders => 8
  | .name i | .nameLen i | .value i | .valueLen i => entries i
  | _ => others

/-- When the parser begins. -/
def atEntry : Slot → ℕ := fields 0 0 0

/-- When the version has been written, and the length of the path before it. -/
def versionLast : Slot → ℕ := fields 8 4 4

/-- When the length of the path has been written, and the version not yet. -/
def pathLast : Slot → ℕ := fields 8 8 0

theorem inside_of_entries {i : ℕ} (h : entries i ≠ 0) : i < maxHeaders := by
  by_contra hlt
  exact h (if_neg hlt)

theorem entries_le (i : ℕ) : entries i ≤ 8 := by
  unfold entries
  split <;> omega

theorem proper_fields {others path version : ℕ} (ho : others ≤ 8) (hp : path ≤ 8)
    (hv : version ≤ 4) : Proper (fields others path version) := by
  intro b
  cases b with
  | method | methodLen | path => exact ⟨ho, fun _ => trivial⟩
  | pathLen => exact ⟨hp, fun _ => trivial⟩
  | minorVersion => exact ⟨hv, fun _ => trivial⟩
  | numHeaders => exact ⟨Nat.le_refl 8, fun _ => trivial⟩
  | name i | nameLen i | value i | valueLen i => exact ⟨entries_le i, inside_of_entries⟩

theorem proper_versionLast : Proper versionLast :=
  proper_fields (by decide) (by decide) (by decide)

theorem after_clear :
    after .numHeaders (after .minorVersion (after .pathLen (after .path
      (after .methodLen (after .method atEntry))))) = versionLast := by
  funext b
  cases b <;> simp [after, atEntry, versionLast, fields, width]

theorem after_pathLen : after .pathLen versionLast = pathLast := by
  funext b
  cases b <;> simp [after, versionLast, pathLast, fields, width]

theorem after_minorVersion : after .minorVersion pathLast = versionLast := by
  funext b
  cases b <;> simp [after, versionLast, pathLast, fields, width]

/-- The other fields are written where they were right. -/
theorem after_versionLast (ha : Inside a) (hpath : a ≠ .pathLen) (hversion : a ≠ .minorVersion) :
    after a versionLast = versionLast := by
  funext b
  by_cases hba : b = a
  · subst hba
    cases b <;> simp_all [after, versionLast, fields, width, Inside, entries]
  · simp [after, hba, hpath, hversion]

/-! ## The two runs -/

section Runs

open BareHttp.Action Stored

/-- What is known of the two stores: how far they agree, and something of the variables. -/
def Rel (valid : Slot → ℕ) (φ : (Slot → ℕ) → Prop) (m : ℕ → UInt8) (v : Slot → ℕ) : Prop :=
  Agree valid m v ∧ φ v

/-- The body has not been touched. -/
def Kept (m₀ m : ℕ → UInt8) (_ : Slot → ℕ) : Prop := ∀ i, bodyOffset ≤ i → m i = m₀ i

/-- The lengths are those of parts of a buffer, and `k` headers have been stored at most. -/
def Small (k : ℕ) (v : Slot → ℕ) : Prop :=
  v .methodLen < 2147483648 ∧ v .pathLen < 2147483648 ∧ v .numHeaders ≤ k

variable {φ ψ : (Slot → ℕ) → Prop} {bufEnd : ℕ}

theorem Small.update (h : Small k v) (hmethod : a ≠ .methodLen) (hpath : a ≠ .pathLen)
    (hnum : a ≠ .numHeaders) (x : ℕ) : Small k (Function.update v a x) := by
  simpa only [Small, Function.update_of_ne hmethod.symm, Function.update_of_ne hpath.symm,
    Function.update_of_ne hnum.symm] using h

theorem lockstep_set (a : Slot) (hproper : Proper valid) (ha : Inside a)
    (hψ : ∀ v, φ v → ψ (Function.update v a x)) :
    Lockstep n (Kept m₀) (Rel valid φ) (set struct a x) (set separate a x)
      (fun _ => Rel (after a valid) ψ) := by
  refine .modify (fun m v hkept i hi => ?_) fun m v h => ⟨h.1.write hproper ha x, hψ v h.2⟩
  have houtside : offset a + width a ≤ i := (offset_add_width_le ha).trans hi
  exact (store_of_outside x (.inr houtside)).trans (hkept i hi)

theorem lockstep_scan {α : Type} {f : Parser α} (hf : f.Consumes) :
    Lockstep n (Kept m₀) (Rel valid φ) (Action.scan f) (Action.scan f) (fun _ => Rel valid φ) :=
  .scan hf fun _ _ _ _ _ _ _ h => h

/-- An out-parameter is read, and it is the same on both sides. -/
theorem lockstep_get_bind {α : Type} {f : ℕ → Routine (ℕ → UInt8) α} {g : ℕ → Routine (Slot → ℕ) α}
    {Q : α → (ℕ → UInt8) → (Slot → ℕ) → Prop} (hb : valid b = width b)
    (h : ∀ x, Lockstep n (Kept m₀) (Rel valid fun v => φ v ∧ x = separate.read v b) (f x) (g x) Q) :
    Lockstep n (Kept m₀) (Rel valid φ) ((get struct b).bind f) ((get separate b).bind g) Q :=
  Lockstep.bind (.read (fun _ _ h => h.1.read hb) fun _ _ h => ⟨h.1, h.2, rfl⟩) h

/-- A field of `headers[*num_headers]` is taken, and it is one of the headers that there is
room for. -/
theorem lockstep_header_bind {α : Type} {f : Slot → Routine (ℕ → UInt8) α}
    {g : Slot → Routine (Slot → ℕ) α} {Q : α → (ℕ → UInt8) → (Slot → ℕ) → Prop}
    (field : ℕ → Slot) (hk : k < maxHeaders)
    (h : ∀ i, i < maxHeaders →
      Lockstep n (Kept m₀) (Rel versionLast (Small k)) (f (field i)) (g (field i)) Q) :
    Lockstep n (Kept m₀) (Rel versionLast (Small k)) ((header struct field).bind f)
      ((header separate field).bind g) Q := by
  have hread : Lockstep n (Kept m₀) (Rel versionLast (Small k)) (header struct field)
      (header separate field)
      (fun b => Rel versionLast fun v => Small k v ∧ ∃ i, i < maxHeaders ∧ b = field i) := by
    refine .read (fun m v h => ?_) fun m v h => ⟨h.1, h.2, _, ?_, rfl⟩
    · rw [h.1.read (b := .numHeaders) rfl]
    · exact Nat.lt_of_le_of_lt ((Nat.mod_le _ _).trans h.2.2.2) hk
  refine hread.bind fun b => .given (fun _ _ h => h.2.2) ?_
  rintro ⟨i, hi, rfl⟩
  exact (h i hi).weaken fun _ _ h => ⟨h.1, h.2.1⟩

/-- A token is a part of the input. -/
theorem lockstep_scanToken (stop ok : UInt8 → Bool) :
    Lockstep n (Kept m₀) (Rel valid φ) (Action.scan (Scanner.takeUntil PhrError.invalid stop ok))
      (Action.scan (Scanner.takeUntil PhrError.invalid stop ok))
      (fun tok => Rel valid fun v => φ v ∧ tok.length ≤ n) := by
  refine .scan (Scanner.consumes_takeUntil _ _ _) fun p tok rest m v hp hdone h => ⟨h.1, h.2, ?_⟩
  rw [(Scanner.takeUntil_eq_done hdone).1, List.length_append] at hp
  exact (Nat.le_add_right _ _).trans hp

/-- A field is written that the two do not overlap. -/
theorem lockstep_setOther (a : Slot) (ha : Inside a) (hpath : a ≠ .pathLen)
    (hversion : a ≠ .minorVersion) (hψ : ∀ v, φ v → ψ (Function.update v a x)) :
    Lockstep n (Kept m₀) (Rel versionLast φ) (set struct a x) (set separate a x)
      (fun _ => Rel versionLast ψ) := by
  have hset : Lockstep n (Kept m₀) (Rel versionLast φ) (set struct a x) (set separate a x)
      (fun _ => Rel (after a versionLast) ψ) := lockstep_set a proper_versionLast ha hψ
  rwa [after_versionLast ha hpath hversion] at hset

/-- A field of a header. -/
def OfHeader (a : Slot) : Prop :=
  a ≠ .methodLen ∧ a ≠ .pathLen ∧ a ≠ .minorVersion ∧ a ≠ .numHeaders

/-- A field of a header is written where there is room for the header. -/
theorem lockstep_setHeader (a : Slot) (ha : Inside a) (hheader : OfHeader a) :
    Lockstep n (Kept m₀) (Rel versionLast (Small k)) (set struct a x) (set separate a x)
      (fun _ => Rel versionLast (Small k)) :=
  lockstep_setOther a ha hheader.2.1 hheader.2.2.1 fun _ h =>
    h.update hheader.1 hheader.2.1 hheader.2.2.2 x

theorem lockstep_storeName {i j : ℕ} (hi : i < maxHeaders) (hj : j < maxHeaders) :
    Lockstep n (Kept m₀) (Rel versionLast (Small k))
      (storeToken struct bufEnd (parseToken colon) (.name i) (.nameLen j))
      (storeToken separate bufEnd (parseToken colon) (.name i) (.nameLen j))
      (fun _ => Rel versionLast (Small k)) := by
  refine (lockstep_scan (consumes_pointer bufEnd)).bind fun start => ?_
  refine (lockstep_scan (Scanner.consumes_takeUntil _ _ _)).bind fun tok => ?_
  refine (lockstep_setHeader (.name i) hi (by simp [OfHeader])).bind fun _ => ?_
  exact lockstep_setHeader (.nameLen j) hj (by simp [OfHeader])

variable {c : UInt8}

/-- **The name of a header.** -/
theorem lockstep_parseHeaderName (hk : k < maxHeaders) :
    Lockstep n (Kept m₀) (Rel versionLast (Small k)) (parseHeaderName struct bufEnd c)
      (parseHeaderName separate bufEnd c) (fun _ => Rel versionLast (Small k)) := by
  refine lockstep_get_bind (by rfl) fun x => .weaken ?_
    fun m v h => (⟨h.1, h.2.1⟩ : Rel versionLast (Small k) m v)
  split
  · refine lockstep_header_bind .name hk fun i hi => ?_
    refine (lockstep_setHeader (.name i) hi (by simp [OfHeader])).bind fun _ => ?_
    refine lockstep_header_bind .nameLen hk fun i hi => ?_
    exact lockstep_setHeader (.nameLen i) hi (by simp [OfHeader])
  · refine lockstep_header_bind .name hk fun i hi => lockstep_header_bind .nameLen hk fun j hj => ?_
    refine (lockstep_storeName hi hj).bind fun _ => ?_
    refine lockstep_header_bind .nameLen hk fun i hi => lockstep_get_bind ?_ fun x => .weaken ?_
      fun m v h => (⟨h.1, h.2.1⟩ : Rel versionLast (Small k) m v)
    · exact if_pos hi
    · split
      · exact lockstep_scan consumes_invalid
      · exact (lockstep_scan consumes_skipColon).bind fun _ => lockstep_scan (.pure ())

/-- **The value of a header.** -/
theorem lockstep_parseHeaderValue (hk : k < maxHeaders) :
    Lockstep n (Kept m₀) (Rel versionLast (Small k)) (parseHeaderValue struct bufEnd)
      (parseHeaderValue separate bufEnd) (fun _ => Rel versionLast (Small k)) := by
  refine (lockstep_scan (consumes_pointer bufEnd)).bind fun start => ?_
  refine (lockstep_scan consumes_getTokenToEol).bind fun token => ?_
  refine lockstep_header_bind .value hk fun i hi => ?_
  refine (lockstep_setHeader (.value i) hi (by simp [OfHeader])).bind fun _ => ?_
  refine lockstep_header_bind .valueLen hk fun i hi => ?_
  exact lockstep_setHeader (.valueLen i) hi (by simp [OfHeader])

/-- The count. -/
theorem lockstep_countHeader :
    Lockstep n (Kept m₀) (Rel versionLast (Small k)) (countHeader struct) (countHeader separate)
      (fun _ => Rel versionLast (Small (k + 1))) := by
  refine lockstep_get_bind (by rfl) fun x => ?_
  refine lockstep_setOther .numHeaders trivial (by simp) (by simp) ?_
  rintro v ⟨⟨hmethod, hpath, hnum⟩, rfl⟩
  refine ⟨by simpa using hmethod, by simpa using hpath, ?_⟩
  rw [Function.update_self]
  exact Nat.succ_le_succ ((Nat.mod_le _ _).trans hnum)

/-- **The headers.** -/
theorem lockstep_parseHeaders (fuel : ℕ) :
    Lockstep n (Kept m₀) (Rel versionLast (Small maxHeaders))
      (parseHeaders struct bufEnd maxHeaders fuel) (parseHeaders separate bufEnd maxHeaders fuel)
      (fun _ => Rel versionLast (Small maxHeaders)) := by
  induction fuel with
  | zero => exact lockstep_scan fun _ _ _ h => absurd h (by simp)
  | succ fuel ih =>
    refine (lockstep_scan consumes_peek).bind fun c => ?_
    split
    · exact lockstep_scan consumes_endOfLine
    · refine lockstep_get_bind (by rfl) fun x => ?_
      split
      · exact (lockstep_scan consumes_invalid).weaken fun _ _ h => ⟨h.1, h.2.1⟩
      · next hx =>
        -- there is room for one more
        have hroom : ∀ m v,
            Rel versionLast (fun v => Small maxHeaders v ∧ x = separate.read v .numHeaders) m v →
              Rel versionLast (Small (maxHeaders - 1)) m v := by
          rintro m v ⟨hagree, ⟨hmethod, hpath, hnum⟩, rfl⟩
          refine ⟨hagree, hmethod, hpath, Nat.le_sub_one_of_lt (Nat.lt_of_le_of_ne hnum ?_)⟩
          intro heq
          exact hx (by simp [separate, width, heq, maxHeaders])
        have hlast : maxHeaders - 1 < maxHeaders := by decide
        refine Lockstep.weaken ?_ hroom
        refine (lockstep_parseHeaderName hlast).bind fun _ => ?_
        refine (lockstep_parseHeaderValue hlast).bind fun _ => ?_
        exact lockstep_countHeader.bind fun _ => ih

/-- The method. -/
theorem lockstep_storeMethod (hn : n < 2147483648) :
    Lockstep n (Kept m₀) (Rel versionLast (Small k))
      (storeToken struct bufEnd (parseToken sp) .method .methodLen)
      (storeToken separate bufEnd (parseToken sp) .method .methodLen)
      (fun _ => Rel versionLast (Small k)) := by
  refine (lockstep_scan (consumes_pointer bufEnd)).bind fun start => ?_
  refine (lockstep_scanToken _ _).bind fun tok => ?_
  refine (lockstep_setOther (ψ := fun v => Small k v ∧ tok.length ≤ n) .method trivial (by simp)
    (by simp) fun v h => ⟨h.1.update (by simp) (by simp) (by simp) start, h.2⟩).bind fun _ => ?_
  refine lockstep_setOther .methodLen trivial (by simp) (by simp) ?_
  rintro v ⟨⟨-, hpath, hnum⟩, htok⟩
  exact ⟨by simpa using Nat.lt_of_le_of_lt htok hn, by simpa using hpath, by simpa using hnum⟩

/-- **The path**, whose length destroys the version. -/
theorem lockstep_storePath (hn : n < 2147483648) :
    Lockstep n (Kept m₀) (Rel versionLast (Small k))
      (storeToken struct bufEnd advanceToken .path .pathLen)
      (storeToken separate bufEnd advanceToken .path .pathLen)
      (fun _ => Rel pathLast (Small k)) := by
  refine (lockstep_scan (consumes_pointer bufEnd)).bind fun start => ?_
  refine (lockstep_scanToken _ _).bind fun tok => ?_
  refine (lockstep_setOther (ψ := fun v => Small k v ∧ tok.length ≤ n) .path trivial (by simp)
    (by simp) fun v h => ⟨h.1.update (by simp) (by simp) (by simp) start, h.2⟩).bind fun _ => ?_
  rw [← after_pathLen]
  refine lockstep_set .pathLen proper_versionLast trivial ?_
  rintro v ⟨⟨hmethod, -, hnum⟩, htok⟩
  exact ⟨by simpa using hmethod, by simpa using Nat.lt_of_le_of_lt htok hn, by simpa using hnum⟩

/-- **The version**, which destroys the high half of that length. -/
theorem lockstep_parseHttpVersion :
    Lockstep n (Kept m₀) (Rel pathLast (Small k)) (parseHttpVersion struct)
      (parseHttpVersion separate) (fun _ => Rel versionLast (Small k)) := by
  refine (lockstep_scan consumes_parseHttpVersion).bind fun version => ?_
  rw [← after_minorVersion]
  exact lockstep_set .minorVersion (proper_fields (by decide) (by decide) (by decide)) trivial
    fun v h => h.update (by simp) (by simp) (by simp) _

/-- **`parse_request`.** -/
theorem lockstep_parseRequest (hn : n < 2147483648) :
    Lockstep n (Kept m₀) (Rel versionLast (Small maxHeaders))
      (parseRequest struct bufEnd maxHeaders) (parseRequest separate bufEnd maxHeaders)
      (fun _ => Rel versionLast (Small maxHeaders)) := by
  refine (lockstep_scan consumes_skipFirstLine).bind fun _ => ?_
  refine (lockstep_storeMethod hn).bind fun _ => ?_
  refine (lockstep_scan consumes_skipSpaces).bind fun _ => ?_
  refine (lockstep_storePath hn).bind fun _ => ?_
  refine (lockstep_scan consumes_skipSpaces).bind fun _ => ?_
  refine lockstep_get_bind (by rfl) fun methodLen => lockstep_get_bind (by rfl) fun pathLen => ?_
  refine .weaken ?_ fun m v h => (⟨h.1, h.2.1.1⟩ : Rel pathLast (Small maxHeaders) m v)
  split
  · exact .scan consumes_invalid fun _ _ _ _ _ _ h => absurd h (by simp [invalid])
  · refine lockstep_parseHttpVersion.bind fun _ => ?_
    refine (lockstep_scan consumes_endOfLine).bind fun _ => ?_
    exact .sized fun size => lockstep_parseHeaders (size + 1)

/-- The clearing of the out-parameters. -/
theorem lockstep_clear :
    Lockstep n (Kept m₀) (Rel atEntry φ) (clear struct) (clear separate)
      (fun _ => Rel versionLast (Small k)) := by
  have h₁ : Proper atEntry := proper_fields (by decide) (by decide) (by decide)
  have h₂ := h₁.after (a := .method) trivial
  have h₃ := h₂.after (a := .methodLen) trivial
  have h₄ := h₃.after (a := .path) trivial
  have h₅ := h₄.after (a := .pathLen) trivial
  have h₆ := h₅.after (a := .minorVersion) trivial
  rw [← after_clear]
  refine (lockstep_set (ψ := fun _ => True) .method h₁ trivial fun _ _ => trivial).bind fun _ => ?_
  refine (lockstep_set (ψ := fun v => v .methodLen = 0) .methodLen h₂ trivial ?_).bind fun _ => ?_
  · exact fun v _ => Function.update_self _ _ _
  refine (lockstep_set (ψ := fun v => v .methodLen = 0) .path h₃ trivial ?_).bind fun _ => ?_
  · exact fun v h => by simpa using h
  refine (lockstep_set (ψ := fun v => v .methodLen = 0 ∧ v .pathLen = 0) .pathLen h₄ trivial
    ?_).bind fun _ => ?_
  · exact fun v h => by simpa using h
  refine (lockstep_set (ψ := fun v => v .methodLen = 0 ∧ v .pathLen = 0) .minorVersion h₅ trivial
    ?_).bind fun _ => ?_
  · exact fun v h => by simpa using h
  refine lockstep_set .numHeaders h₆ trivial fun v h => ?_
  simp [Small, h.1, h.2]

/-- **`phr_parse_request`**, where the limit is the size of the array. -/
theorem lockstep_phrParseRequest (bufEnd : ℕ) (hn : n < 2147483648) (lastLen : ℕ) :
    Lockstep n (Kept m₀) (Rel atEntry fun v => v .numHeaders = maxHeaders)
      (phrParseRequest struct bufEnd lastLen) (phrParseRequest separate bufEnd lastLen)
      (fun _ => Rel versionLast (Small maxHeaders)) := by
  refine lockstep_get_bind (by rfl) fun limit => .given (φ := limit = maxHeaders) ?_ ?_
  · rintro m v ⟨-, hnum, rfl⟩
    simp [separate, width, hnum, maxHeaders]
  · rintro rfl
    refine (lockstep_clear (k := maxHeaders)).bind fun _ => ?_
    refine (lockstep_scan (consumes_checkComplete lastLen)).bind fun _ => ?_
    exact lockstep_parseRequest hn

end Runs

/-! ## `http_parse_request` -/

/-- Where the padding behind `num_headers` is. -/
def padOffset : ℕ := 1636

/-- `request->num_headers = MAX_HEADERS`. -/
def withLimit (m : ℕ → UInt8) : ℕ → UInt8 := store m (offset .numHeaders) 4 maxHeaders

/-- `http_parse_request` on the bytes of the record, for a buffer at the address `start`: what
it returns, and the bytes behind it. -/
def httpParseRequest (start : ℕ) (buff : Bytes) (lastLen : Int) (m : ℕ → UInt8) :
    Int × (ℕ → UInt8) :=
  let r := Stored.phrParseRequest struct (start + buff.length) (CInt.toSizeT lastLen) buff
    (withLimit m)
  (Stored.returnValue buff.length r.1, r.2)

/-- Variables for a call of `phr_parse_request`: the header array is the one of the record, the
limit is set, and the others hold anything. -/
def fresh (m : ℕ → UInt8) (junk : Slot → ℕ) : Slot → ℕ
  | .numHeaders => maxHeaders
  | .name i => struct.read m (.name i)
  | .nameLen i => struct.read m (.nameLen i)
  | .value i => struct.read m (.value i)
  | .valueLen i => struct.read m (.valueLen i)
  | b => junk b

/-- `phr_parse_request` with such variables. -/
def cleanCall (start : ℕ) (buff : Bytes) (lastLen : Int) (v : Slot → ℕ) : Int × (Slot → ℕ) :=
  let r := Stored.phrParseRequest separate (start + buff.length) (CInt.toSizeT lastLen) buff v
  (Stored.returnValue buff.length r.1, r.2)

/-- The fields of the record, read with their own types, hold what the variables hold. -/
structure SameFields (m : ℕ → UInt8) (v : Slot → ℕ) : Prop where
  method : load m (offset .method) 8 = separate.read v .method
  methodSize : CInt.toInt32 (load m (offset .methodLen) 4) = separate.read v .methodLen
  url : load m (offset .path) 8 = separate.read v .path
  urlSize : CInt.toInt32 (load m (offset .pathLen) 4) = separate.read v .pathLen
  version : load m (offset .minorVersion) 4 = separate.read v .minorVersion
  numHeaders : CInt.toInt32 (load m (offset .numHeaders) 4) = separate.read v .numHeaders
  headers : ∀ i < maxHeaders, ∀ field ∈ [Slot.name, .nameLen, .value, .valueLen],
    load m (offset (field i)) 8 = separate.read v (field i)

/-- **`http_parse_request` does what a call with variables of the right types does.** -/
structure Refines (start : ℕ) (buff : Bytes) (lastLen : Int) (m : ℕ → UInt8) (junk : Slot → ℕ) :
    Prop where
  limit : struct.read (withLimit m) .numHeaders = maxHeaders
  answer : (httpParseRequest start buff lastLen m).1 =
    (cleanCall start buff lastLen (fresh m junk)).1
  fields : 0 ≤ (httpParseRequest start buff lastLen m).1 →
    SameFields (httpParseRequest start buff lastLen m).2
      (cleanCall start buff lastLen (fresh m junk)).2
  body : ∀ i, bodyOffset ≤ i → (httpParseRequest start buff lastLen m).2 i = m i

/-- **The limit** is the field with the padding for its high half. -/
theorem limit_eq (m : ℕ → UInt8) :
    struct.read (withLimit m) .numHeaders = maxHeaders + 4294967296 * load m padOffset 4 := by
  have hlow : load (withLimit m) 1632 4 = maxHeaders := load_store m 1632 maxHeaders (Nat.le_refl 4)
  have hhigh : load (withLimit m) padOffset 4 = load m padOffset 4 :=
    load_store_of_disjoint m _ (.inl (by decide))
  calc struct.read (withLimit m) .numHeaders = load (withLimit m) 1632 (4 + 4) := rfl
    _ = load (withLimit m) 1632 4 + 256 ^ 4 * load (withLimit m) padOffset 4 := load_add _ _ _ _
    _ = maxHeaders + 4294967296 * load m padOffset 4 := by rw [hlow, hhigh]; norm_num

/-- The header array is as it was. -/
theorem load_withLimit (hb : Inside b) (hne : b ≠ .numHeaders) :
    load (withLimit m) (offset b) (width b) = struct.read m b := by
  have hdisjoint := disjoint_of_inside (a := .numHeaders) trivial hb hne.symm (by simp) (by simp)
  have hwidth : width .numHeaders = 8 := rfl
  exact load_store_of_disjoint m _ (by omega)

theorem agree_header {junk : Slot → ℕ} {i : ℕ} (hinside : Inside b ↔ i < maxHeaders)
    (hwidth : width b = 8) (hne : b ≠ .numHeaders) (hread : fresh m junk b = struct.read m b) :
    load (withLimit m) (offset b) (entries i) = fresh m junk b % 256 ^ entries i := by
  unfold entries
  split
  · next hi =>
    rw [← hwidth, load_withLimit (hinside.mpr hi) hne, hread]
    exact (Nat.mod_eq_of_lt (load_lt m (offset b) (width b))).symm
  · simp [load, Nat.mod_one]

/-- The two stores when the parser begins. -/
theorem agree_atEntry (hpad : load m padOffset 4 = 0) (junk : Slot → ℕ) :
    Agree atEntry (withLimit m) (fresh m junk) := by
  intro b
  cases b with
  | method | methodLen | path | pathLen | minorVersion =>
    simp [atEntry, fields, load, Nat.mod_one]
  | numHeaders =>
    have hlimit := limit_eq m
    rw [hpad] at hlimit
    exact hlimit
  | name i | nameLen i | value i | valueLen i => exact agree_header Iff.rfl rfl (by simp) rfl

/-- The low half of a number below 2^31 is the number. -/
theorem load_of_agree (h : Agree versionLast m v) (hb : 4 ≤ versionLast b) (hwidth : width b = 8)
    (hsmall : v b < 2147483648) : load m (offset b) 4 = separate.read v b := by
  rw [load_of_le _ _ hb, h, Nat.mod_mod_of_dvd _ (Nat.pow_dvd_pow 256 hb)]
  simp only [separate, hwidth]
  omega

/-- It is the same as an `int`. -/
theorem toInt32_of_agree (h : Agree versionLast m v) (hb : 4 ≤ versionLast b) (hwidth : width b = 8)
    (hsmall : v b < 2147483648) : CInt.toInt32 (load m (offset b) 4) = separate.read v b := by
  rw [load_of_agree h hb hwidth hsmall]
  have hread : separate.read v b ≤ v b := Nat.mod_le _ _
  exact CInt.toInt32_of_mem (by omega) (by omega)

/-- **The fields behind a successful parse.** -/
theorem sameFields_of_rel (h : Rel versionLast (Small maxHeaders) m v) : SameFields m v := by
  obtain ⟨hagree, hmethod, hpath, hnum⟩ := h
  have hcount : v .numHeaders < 2147483648 := Nat.lt_of_le_of_lt hnum (by decide)
  refine ⟨hagree.read (b := .method) rfl, toInt32_of_agree hagree (by decide) rfl hmethod,
    hagree.read (b := .path) rfl, toInt32_of_agree hagree (by decide) rfl hpath,
    hagree.read (b := .minorVersion) rfl, toInt32_of_agree hagree (by decide) rfl hcount, ?_⟩
  intro i hi field hfield
  simp only [List.mem_cons, List.not_mem_nil, or_false] at hfield
  have hentries : entries i = 8 := if_pos hi
  rcases hfield with rfl | rfl | rfl | rfl
  · exact hagree.read (b := .name i) hentries
  · exact hagree.read (b := .nameLen i) hentries
  · exact hagree.read (b := .value i) hentries
  · exact hagree.read (b := .valueLen i) hentries

/-- Setting the limit leaves the body alone. -/
theorem kept_withLimit (m : ℕ → UInt8) (v : Slot → ℕ) : Kept m (withLimit m) v := fun i hi =>
  store_of_outside _ (.inr (by simp only [offset, bodyOffset] at *; omega))

/-- **`http_parse_request` does what a clean call does exactly if the padding behind
`num_headers` is zero**, whatever else the record and the variables held. -/
theorem refines_iff (start : ℕ) {buff : Bytes} (hbuff : buff.length < 2147483648) (lastLen : Int)
    (m : ℕ → UInt8) (junk : Slot → ℕ) :
    Refines start buff lastLen m junk ↔ ∀ i, padOffset ≤ i → i < padOffset + 4 → m i = 0 := by
  rw [← load_eq_zero_iff]
  constructor
  · intro h
    have hlimit := (limit_eq m).symm.trans h.limit
    omega
  · intro hpad
    obtain ⟨hanswer, hbody, hdone⟩ := lockstep_phrParseRequest (start + buff.length) hbuff
      (CInt.toSizeT lastLen) buff (withLimit m) (fresh m junk) (Nat.le_refl _)
      (kept_withLimit m _) ⟨agree_atEntry hpad junk, rfl⟩
    refine ⟨by rw [limit_eq, hpad]; rfl, ?_, fun hsuccess => ?_, hbody⟩
    · simp only [httpParseRequest, cleanCall, hanswer]
    · obtain ⟨rest, hrest⟩ := Stored.exists_done_of_returnValue hsuccess
      exact sameFields_of_rel (hdone () rest hrest).2

/-- A record on the stack: the padding behind `num_headers` is `pad`, and every other byte is
255. -/
def staleRecord (pad : UInt8) : ℕ → UInt8 := fun i =>
  if padOffset ≤ i ∧ i < padOffset + 4 then pad else 255

/-- A request with `n` headers that have no value. -/
def manyHeaders (n : ℕ) : Bytes :=
  ascii "GET / HTTP/1.0\r\n" ++ (List.replicate n (ascii "a:\r\n")).flatten ++ ascii "\r\n"

theorem staleRecord_refines :
    Refines 4096 (manyHeaders 2) 0 (staleRecord 0) (fun _ => 7) ∧
      (httpParseRequest 4096 (manyHeaders 2) 0 (staleRecord 0)).1 = 26 := by
  refine ⟨(refines_iff 4096 (by decide) 0 (staleRecord 0) fun _ => 7).mpr fun i hlo hhi => ?_,
    by decide +kernel⟩
  exact if_pos ⟨hlo, hhi⟩

/-- With anything else in the padding the limit is not the size of the array.  A fifty-first
header, which a clean call refuses, is then stored behind it. -/
theorem strayHeader_not_refines :
    ¬ Refines 4096 (manyHeaders 51) 0 (staleRecord 1) (fun _ => 7) ∧
      (BareHttp.httpParseRequest (manyHeaders 51) .zeroed 0).1 = .invalid ∧
      (BareHttp.httpParseRequest (manyHeaders 51)
        { HttpRequest.zeroed with headersPad := load (staleRecord 1) padOffset 4 } 0).1 =
          .overrun := by
  refine ⟨fun h => ?_, by decide +kernel, by decide +kernel⟩
  have hpad : load (staleRecord 1) padOffset 4 = 16843009 := by decide +kernel
  have hlimit := (limit_eq (staleRecord 1)).symm.trans h.limit
  omega

end Layout
end BareHttp
