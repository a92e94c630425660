import Mathlib.Data.List.DropRight
import BareHttp.Foundation.Separator
import BareHttp.Foundation.Tally

/-!
# The shopping cart

The scripts of `store/carrito`.  The cart is a text file with a product in each line, and behind
its name ` x` and a number if there are several of it.  `agregar_producto.py` reads the lines,
counts in the first one that is of the product, and writes them all back; there is no other record
of what is in the cart, and what a line says of it is found out from its text.

For names in which ` x` does not stand that is what it looks like: `cart_of_run` says that after
any run of the scripts the file has the first thirty-two products that were put into it since it was
emptied, each with the number of times it was.

What `parse_qs` makes of the body is given here, as the product or that there is none.  The texts
that are printed are not modelled, except for the cart itself.
-/

namespace BareHttp
namespace Carrito

open Separator

/-- A text of Python. -/
abbrev Text := List Char

/-- `str.isspace` for a character. -/
def isSpace (c : Char) : Bool :=
  let n := c.toNat
  (9 ≤ n && n ≤ 13) || (28 ≤ n && n ≤ 32) || n = 133 || n = 160 || n = 5760 ||
    (8192 ≤ n && n ≤ 8202) || n = 8232 || n = 8233 || n = 8239 || n = 8287 || n = 12288

/-- `str.strip`. -/
def strip (s : Text) : Text := (s.dropWhile isSpace).rdropWhile isSpace

/-- The value of a digit. -/
def digitVal (c : Char) : ℕ := c.toNat - 48

/-- More digits behind one, perhaps with an underscore in front. -/
def digitsFrom : ℕ → Text → Option ℕ
  | n, [] => some n
  | n, '_' :: c :: s => if c.isDigit then digitsFrom (10 * n + digitVal c) s else none
  | n, c :: s => if c.isDigit then digitsFrom (10 * n + digitVal c) s else none

/-- Digits. -/
def digits : Text → Option ℕ
  | [] => none
  | c :: s => if c.isDigit then digitsFrom (digitVal c) s else none

/-- `int`, for the digits of ASCII; `none` is a `ValueError`. -/
def int (s : Text) : Option ℤ :=
  match strip s with
  | '-' :: t => (digits t).map fun n => -(n : ℤ)
  | '+' :: t => (digits t).map fun n => (n : ℤ)
  | t => (digits t).map fun n => (n : ℤ)

/-- `str`, for an integer. -/
def str (z : ℤ) : Text := (toString z).toList

/-- The line ends of a file that is opened as text. -/
def universalNewlines : Text → Text
  | '\r' :: '\n' :: s => '\n' :: universalNewlines s
  | '\r' :: s => '\n' :: universalNewlines s
  | c :: s => c :: universalNewlines s
  | [] => []

/-- The lines of the file, without the blanks around them and without those that are empty. -/
def productosEnCarrito (archivo : Text) : List Text :=
  (((universalNewlines archivo).splitOn '\n').map strip).filter fun line => line ≠ []

/-- `" x"`. -/
def marca : Text := [' ', 'x']

/-- `MAX_LINEAS`. -/
def maxLineas : ℕ := 32

/-- The loop over the lines, with `encontrado`.  It is left by an exception if the number of a line
cannot be read. -/
def carritoActualizado (nuevoProducto : Text) : List Text → Bool → Option (List Text × Bool)
  | [], encontrado => some ([], encontrado)
  | item :: items, encontrado =>
    if item = nuevoProducto ∨ nuevoProducto ++ marca <+: item then
      if encontrado then
        (carritoActualizado nuevoProducto items true).map fun r => (item :: r.1, r.2)
      else
        match rsplit marca item with
        | some (nombre, cantidad) =>
          (int cantidad).bind fun n =>
            (carritoActualizado nuevoProducto items true).map fun r =>
              ((nombre ++ marca ++ str (n + 1)) :: r.1, r.2)
        | none =>
          (carritoActualizado nuevoProducto items true).map fun r =>
            ((item ++ marca ++ ['2']) :: r.1, r.2)
    else
      (carritoActualizado nuevoProducto items encontrado).map fun r => (item :: r.1, r.2)

/-- How `agregar_producto.py` ends. -/
inductive Salida where
  | ausente
  | valueError
  | limite
  | actualizado
  | errorCritico
  deriving DecidableEq

/-- `agregar_producto.py`.  The cart is `none` if there is no such file, and `abre` tells whether it
can be opened for writing. -/
def agregarProducto (nuevoProducto : Option Text) (abre : Bool) (archivo : Option Text) :
    Salida × Option Text :=
  match nuevoProducto with
  | none => (.ausente, archivo)
  | some nuevoProducto =>
    if nuevoProducto = [] then (.ausente, archivo)
    else
      let productos := match archivo with
        | some texto => productosEnCarrito texto
        | none => []
      match carritoActualizado nuevoProducto productos false with
      | none => (.valueError, archivo)
      | some (carrito, encontrado) =>
        let carrito := if encontrado then carrito else carrito ++ [nuevoProducto]
        if maxLineas < carrito.length then (.limite, archivo)
        else if abre then (.actualizado, some (carrito.map (· ++ ['\n'])).flatten)
        else (.errorCritico, archivo)

/-- `borrar_carrito.py`. -/
def borrarCarrito (abre : Bool) (archivo : Option Text) : Option Text :=
  if abre then some [] else archivo

/-! ## Numbers -/

theorem str_natCast (n : ℕ) : str n = Nat.toDigits 10 n := by
  show n.repr.toList = _
  exact Nat.toList_repr

theorem str_ne_nil (n : ℕ) : str n ≠ [] := by
  rw [str_natCast]
  exact Nat.toDigits_ne_nil

theorem isDigit_of_mem_str {n : ℕ} {c : Char} (h : c ∈ str n) : c.isDigit = true := by
  rw [str_natCast] at h
  exact Nat.isDigit_of_mem_toDigits (by decide) (by decide) h

/-- Digits are in the middle of the characters. -/
theorem toNat_of_isDigit {c : Char} (h : c.isDigit = true) : 48 ≤ c.toNat ∧ c.toNat ≤ 57 := by
  simpa [Char.isDigit, UInt32.le_iff_toNat_le] using h

theorem isSpace_of_isDigit {c : Char} (h : c.isDigit = true) : isSpace c = false := by
  obtain ⟨hle, hge⟩ := toNat_of_isDigit h
  simp only [isSpace, Bool.or_eq_false_iff, Bool.and_eq_false_iff, decide_eq_false_iff_not]
  omega

theorem digitsFrom_of_isDigit {cs : Text} (h : ∀ c ∈ cs, c.isDigit = true) (k : ℕ) :
    digitsFrom k cs = some (Nat.ofDigitChars 10 cs k) := by
  induction cs generalizing k with
  | nil => rfl
  | cons c cs ih =>
    obtain ⟨hc, hcs⟩ := List.forall_mem_cons.mp h
    have hne : c ≠ '_' := by
      rintro rfl
      exact absurd hc (by decide)
    rw [digitsFrom.eq_3 k c cs (by rintro _ _ rfl; exact absurd rfl hne), if_pos hc, ih hcs,
      Nat.ofDigitChars_cons]
    rfl

theorem digits_of_isDigit {cs : Text} (hne : cs ≠ []) (h : ∀ c ∈ cs, c.isDigit = true) :
    digits cs = some (Nat.ofDigitChars 10 cs 0) := by
  cases cs with
  | nil => exact absurd rfl hne
  | cons c cs =>
    obtain ⟨hc, hcs⟩ := List.forall_mem_cons.mp h
    rw [digits, if_pos hc, digitsFrom_of_isDigit hcs, Nat.ofDigitChars_cons]
    simp [digitVal]

/-! ## Blanks at the ends -/

/-- A text that neither begins nor ends with a blank. -/
def Trimmed (s : Text) : Prop :=
  (∀ c ∈ s.head?, isSpace c = false) ∧ ∀ c ∈ s.getLast?, isSpace c = false

theorem dropWhile_isSpace_iff {s : Text} :
    s.dropWhile isSpace = s ↔ ∀ c ∈ s.head?, isSpace c = false := by
  cases s with
  | nil => simp
  | cons c s => simp [List.dropWhile_eq_self_iff]

theorem rdropWhile_isSpace_iff {s : Text} :
    s.rdropWhile isSpace = s ↔ ∀ c ∈ s.getLast?, isSpace c = false := by
  rw [List.rdropWhile_eq_self_iff]
  by_cases hs : s = []
  · simp [hs]
  · simp [List.getLast?_eq_getLast_of_ne_nil hs, hs]

theorem strip_eq_self_iff {s : Text} : strip s = s ↔ Trimmed s := by
  constructor
  · intro h
    -- what is cut off in front is missing at the end
    have hhead : s.dropWhile isSpace = s := by
      refine (List.dropWhile_suffix isSpace).eq_of_length_le ?_
      calc s.length = (strip s).length := by rw [h]
        _ ≤ (s.dropWhile isSpace).length := (List.rdropWhile_prefix _ _).length_le
    rw [strip, hhead] at h
    exact ⟨dropWhile_isSpace_iff.mp hhead, rdropWhile_isSpace_iff.mp h⟩
  · rintro ⟨hhead, hlast⟩
    rw [strip, dropWhile_isSpace_iff.mpr hhead, rdropWhile_isSpace_iff.mpr hlast]

theorem trimmed_str (n : ℕ) : Trimmed (str n) :=
  ⟨fun _ hc => isSpace_of_isDigit (isDigit_of_mem_str (List.mem_of_mem_head? hc)),
    fun _ hc => isSpace_of_isDigit (isDigit_of_mem_str (List.mem_of_mem_getLast? hc))⟩

/-- **A number is read back.** -/
theorem int_str (n : ℕ) : int (str n) = some (n : ℤ) := by
  have hdigits : ∀ c ∈ str n, c.isDigit = true := fun c hc => isDigit_of_mem_str hc
  have hval : digits (str n) = some n := by
    rw [digits_of_isDigit (str_ne_nil n) hdigits, str_natCast, Nat.ofDigitChars_ten_toDigits]
  unfold int
  rw [strip_eq_self_iff.mpr (trimmed_str n)]
  split
  · next t heq => exact absurd (hdigits '-' (by simp [heq])) (by decide)
  · next t heq => exact absurd (hdigits '+' (by simp [heq])) (by decide)
  · rw [hval]
    rfl

/-! ## The lines of the cart -/

/-- The name of a product that its line can be told from: one that is left as it is when it is
stripped, in one line, and without the mark in front of the number. -/
structure Nombre (p : Text) : Prop where
  ne : p ≠ []
  strip : strip p = p
  line : '\n' ∉ p ∧ '\r' ∉ p
  marca : ¬ marca <:+: p

/-- The line of a product, with how many of it are in the cart. -/
def linea (e : Text × ℕ) : Text := if e.2 = 1 then e.1 else e.1 ++ (marca ++ str e.2)

/-- The text of a cart. -/
def texto (c : List (Text × ℕ)) : Text := ((c.map linea).map (· ++ ['\n'])).flatten

section Lines

variable {p q : Text} {n : ℕ} {c : List (Text × ℕ)}

theorem linea_one (p : Text) : linea (p, 1) = p := if_pos rfl

theorem linea_of_ne_one (p : Text) (hn : n ≠ 1) : linea (p, n) = p ++ (marca ++ str n) := if_neg hn

theorem trimmed_linea (hp : Nombre p) (n : ℕ) : Trimmed (linea (p, n)) := by
  obtain ⟨hhead, hlast⟩ := strip_eq_self_iff.mp hp.strip
  by_cases hn : n = 1
  · rw [hn, linea_one]
    exact ⟨hhead, hlast⟩
  · rw [linea_of_ne_one p hn]
    refine ⟨?_, ?_⟩
    · rwa [List.head?_append_of_ne_nil _ hp.ne]
    · rw [← List.append_assoc, List.getLast?_append_of_ne_nil _ (str_ne_nil n)]
      exact (trimmed_str n).2

theorem linea_ne_nil (hp : Nombre p) (n : ℕ) : linea (p, n) ≠ [] := by
  unfold linea
  split_ifs <;> simp [hp.ne]

/-- The characters of a line are those of the name, of the mark and of the number. -/
theorem notMem_linea {a : Char} (hp : a ∉ p) (hmarca : a ∉ marca) (ha : a.isDigit = false) (n : ℕ) :
    a ∉ linea (p, n) := by
  unfold linea
  split_ifs
  · exact hp
  · simp only [List.mem_append, not_or]
    exact ⟨hp, hmarca, fun h => by simp [isDigit_of_mem_str h] at ha⟩

theorem universalNewlines_eq_self {s : Text} (h : '\r' ∉ s) : universalNewlines s = s := by
  induction s with
  | nil => rfl
  | cons c s ih =>
    rw [List.mem_cons, not_or] at h
    rw [universalNewlines.eq_3 c s (fun _ hc _ => h.1 hc.symm) (fun hc => h.1 hc.symm), ih h.2]

/-- **The lines are read as they were written.** -/
theorem productosEnCarrito_texto (hc : ∀ e ∈ c, Nombre e.1) :
    productosEnCarrito (texto c) = c.map linea := by
  have hnotMem : ∀ a, a ∉ marca → a.isDigit = false → (∀ e ∈ c, a ∉ e.1) →
      ∀ line ∈ c.map linea, a ∉ line := by
    intro a hmarca ha hnames line hline
    obtain ⟨e, he, rfl⟩ := List.mem_map.mp hline
    exact notMem_linea (hnames e he) hmarca ha e.2
  have hcr : '\r' ∉ texto c := by
    intro hmem
    obtain ⟨row, hrow, hin⟩ := List.mem_flatten.mp hmem
    obtain ⟨line, hline, rfl⟩ := List.mem_map.mp hrow
    rcases List.mem_append.mp hin with hin | hin
    · exact hnotMem '\r' (by decide) (by decide) (fun e he => (hc e he).line.2) line hline hin
    · exact absurd hin (by decide)
  rw [productosEnCarrito, universalNewlines_eq_self hcr, texto,
    splitOn_lines (hnotMem '\n' (by decide) (by decide) fun e he => (hc e he).line.1),
    List.map_append, List.filter_append]
  have hstrip : (c.map linea).map strip = c.map linea := by
    rw [List.map_map]
    exact List.map_congr_left fun e he => strip_eq_self_iff.mpr (trimmed_linea (hc e he) e.2)
  have hkeep : (c.map linea).filter (fun line => line ≠ []) = c.map linea := by
    refine List.filter_eq_self.mpr fun line hline => ?_
    obtain ⟨e, he, rfl⟩ := List.mem_map.mp hline
    simpa using linea_ne_nil (hc e he) e.2
  rw [hstrip, hkeep]
  simp [strip]

/-! ## The loop -/

theorem marca_append_space (hp : Nombre p) : ¬ marca <:+: p ++ marca.dropLast := by
  show ¬ marca <:+: p ++ [' ']
  rw [List.infix_concat_iff, not_or]
  refine ⟨fun h => ?_, hp.marca⟩
  obtain ⟨t, ht⟩ := h
  have hlast := congrArg List.getLast? ht
  simp [marca] at hlast

/-- **The lines of a product** are those that the script takes for its lines. -/
theorem linea_iff (hp : Nombre p) (hq : Nombre q) (n : ℕ) :
    (linea (p, n) = q ∨ q ++ marca <+: linea (p, n)) ↔ p = q := by
  constructor
  · intro h
    by_cases hn : n = 1
    · rw [hn, linea_one] at h
      exact h.resolve_right fun h =>
        hp.marca ((List.suffix_append q marca).isInfix.trans h.isInfix)
    · rw [linea_of_ne_one p hn] at h
      rcases h with h | h
      · refine absurd ?_ hq.marca
        rw [← h]
        exact (List.prefix_append marca (str n)).isInfix.trans
          (List.suffix_append p (marca ++ str n)).isInfix
      · refine (eq_of_first (by decide) (marca_append_space hq) (marca_append_space hp) h ?_).symm
        rw [← List.append_assoc]
        exact List.prefix_append _ _
  · rintro rfl
    by_cases hn : n = 1
    · exact .inl (by rw [hn, linea_one])
    · refine .inr ?_
      rw [linea_of_ne_one p hn, ← List.append_assoc]
      exact List.prefix_append _ _

/-- Behind the line that was counted the lines stay as they are. -/
theorem carritoActualizado_true (q : Text) (items : List Text) :
    carritoActualizado q items true = some (items, true) := by
  induction items with
  | nil => rfl
  | cons item items ih =>
    rw [carritoActualizado, ih, if_pos rfl]
    split_ifs <;> rfl

/-- **The line that is counted.** -/
theorem carritoActualizado_cons_self (hq : Nombre q) (hn : n ≠ 0) (items : List Text) :
    carritoActualizado q (linea (q, n) :: items) false =
      some (linea (q, n + 1) :: items, true) := by
  rw [carritoActualizado, if_pos ((linea_iff hq hq n).mpr rfl), carritoActualizado_true]
  by_cases h1 : n = 1
  · have htwo : str ((1 + 1 : ℕ) : ℤ) = ['2'] := by decide
    rw [h1, linea_one, rsplit_eq_none hq.marca, linea_of_ne_one q (by decide), htwo]
    simp
  · have hcut : rsplit marca (linea (q, n)) = some (q, str n) := by
      rw [linea_of_ne_one q h1]
      refine rsplit_append (by decide) fun h => ?_
      have hspace : ' ' ∈ marca.tail ++ str n := h.sublist.subset (by decide)
      rcases List.mem_append.mp hspace with hspace | hspace
      · exact absurd hspace (by decide)
      · exact absurd (isDigit_of_mem_str hspace) (by decide)
    have hnext : str (n + 1 : ℤ) = str (n + 1 : ℕ) := rfl
    simp only [hcut, int_str, Bool.false_eq_true, if_false, Option.bind_some, Option.map_some,
      hnext]
    rw [linea_of_ne_one q (by omega), List.append_assoc]

/-- **The loop counts.** -/
theorem carritoActualizado_map (hq : Nombre q) (hc : ∀ e ∈ c, Nombre e.1 ∧ e.2 ≠ 0)
    (hnodup : (c.map Prod.fst).Nodup) :
    carritoActualizado q (c.map linea) false =
      some ((c.map fun e => if e.1 = q then (e.1, e.2 + 1) else e).map linea,
        decide (q ∈ c.map Prod.fst)) := by
  induction c with
  | nil => rfl
  | cons e c ih =>
    obtain ⟨p, n⟩ := e
    obtain ⟨⟨hp, hn⟩, hc⟩ := List.forall_mem_cons.mp hc
    rw [List.map_cons, List.nodup_cons] at hnodup
    rw [List.map_cons]
    by_cases hpq : p = q
    · subst hpq
      have hrest : (c.map fun e => if e.1 = p then (e.1, e.2 + 1) else e) = c := by
        refine (List.map_congr_left fun e he => if_neg fun h => ?_).trans (List.map_id c)
        exact hnodup.1 (List.mem_map.mpr ⟨e, he, h⟩)
      rw [carritoActualizado_cons_self hp hn, List.map_cons, hrest]
      simp
    · rw [carritoActualizado, if_neg fun h => hpq ((linea_iff hp hq n).mp h), ih hc hnodup.2]
      simp [hpq, Ne.symm hpq]

/-! ## Runs -/

/-- A cart in which every product has a name and one line. -/
structure WellKept (c : List (Text × ℕ)) : Prop where
  entries : ∀ e ∈ c, Nombre e.1 ∧ e.2 ≠ 0
  nodup : (c.map Prod.fst).Nodup
  length_le : c.length ≤ maxLineas

theorem wellKept_counts {ps : List Text} (hps : ∀ p ∈ ps, Nombre p) :
    WellKept (Tally.counts maxLineas ps) where
  entries e he := ⟨hps e.1 (Tally.mem_counts he).1, (Tally.mem_counts he).2⟩
  nodup := Tally.nodup_map_fst_counts maxLineas ps
  length_le := by
    rw [Tally.length_counts]
    exact Nat.min_le_left _ _

/-- **One product more.** -/
theorem agregarProducto_texto (hc : WellKept c) (hq : Nombre q) (abre : Bool) :
    agregarProducto (some q) abre (some (texto c)) =
      if q ∈ c.map Prod.fst ∨ c.length < maxLineas then
        if abre then (.actualizado, some (texto (Tally.add maxLineas c q)))
        else (.errorCritico, some (texto c))
      else (.limite, some (texto c)) := by
  have hloop := carritoActualizado_map hq hc.entries hc.nodup
  simp only [agregarProducto, if_neg hq.ne,
    productosEnCarrito_texto fun e he => (hc.entries e he).1, hloop]
  by_cases hmem : q ∈ c.map Prod.fst
  · have hlen : ¬ maxLineas <
        ((c.map fun e => if e.1 = q then (e.1, e.2 + 1) else e).map linea).length := by
      simpa using hc.length_le
    simp only [hmem, decide_true, if_true, if_neg hlen, true_or, Tally.add, texto]
  · have hsame : (c.map fun e => if e.1 = q then (e.1, e.2 + 1) else e) = c := by
      refine (List.map_congr_left fun e he => if_neg fun h => ?_).trans (List.map_id c)
      exact hmem (List.mem_map.mpr ⟨e, he, h⟩)
    have hlen : (c.map linea ++ [q]).length = c.length + 1 := by simp
    simp only [hmem, decide_false, Bool.false_eq_true, if_false, hsame, hlen, false_or, Tally.add]
    by_cases hroom : c.length < maxLineas
    · have hline : c.map linea ++ [q] = (c ++ [(q, 1)]).map linea := by
        rw [List.map_append, List.map_singleton, linea_one]
      rw [if_neg (by omega), if_pos hroom, if_pos hroom, hline]
      rfl
    · rw [if_pos (by omega), if_neg hroom]

theorem agregarProducto_none (hq : q ≠ []) (abre : Bool) :
    agregarProducto (some q) abre none =
      if abre then (.actualizado, some (texto (Tally.add maxLineas [] q)))
      else (.errorCritico, none) := by
  simp [agregarProducto, hq, carritoActualizado, maxLineas, Tally.add, texto, linea]

/-- What the file holds after `ps` were put into the cart.  There may be none as long as it is
empty. -/
def Holds (archivo : Option Text) (ps : List Text) : Prop :=
  archivo = some (texto (Tally.counts maxLineas ps)) ∨ archivo = none ∧ ps = []

theorem agregarProducto_holds {archivo : Option Text} {ps : List Text} (h : Holds archivo ps)
    (hps : ∀ p ∈ ps, Nombre p) (hq : Nombre q) (abre : Bool) :
    (agregarProducto (some q) abre archivo).1 =
        (if q ∈ (Tally.firsts ps).take maxLineas ∨ (Tally.firsts ps).length < maxLineas then
          if abre then .actualizado else .errorCritico
        else .limite) ∧
      Holds (agregarProducto (some q) abre archivo).2 (if abre then ps ++ [q] else ps) := by
  rcases h with rfl | ⟨rfl, rfl⟩
  · have hcond : q ∈ (Tally.counts maxLineas ps).map Prod.fst ∨
          (Tally.counts maxLineas ps).length < maxLineas ↔
        q ∈ (Tally.firsts ps).take maxLineas ∨ (Tally.firsts ps).length < maxLineas := by
      rw [Tally.map_fst_counts, Tally.length_counts]
      exact or_congr_right (by omega)
    rw [agregarProducto_texto (wellKept_counts hps) hq]
    by_cases hgood : q ∈ (Tally.counts maxLineas ps).map Prod.fst ∨
        (Tally.counts maxLineas ps).length < maxLineas
    · rw [if_pos hgood, if_pos (hcond.mp hgood), Tally.add_counts]
      cases abre
      · exact ⟨rfl, .inl rfl⟩
      · exact ⟨rfl, .inl rfl⟩
    · rw [if_neg hgood, if_neg (hcond.not.mp hgood)]
      refine ⟨rfl, .inl ?_⟩
      cases abre
      · rfl
      · -- what does not get a line is not counted
        have hsame := Tally.add_counts maxLineas ps q
        rw [not_or] at hgood
        rw [Tally.add, if_neg hgood.1, if_neg hgood.2] at hsame
        rw [if_pos rfl, ← hsame]
  · rw [agregarProducto_none hq.ne]
    cases abre
    · exact ⟨by simp [Tally.firsts, maxLineas], .inr ⟨rfl, rfl⟩⟩
    · refine ⟨by simp [Tally.firsts, maxLineas], .inl ?_⟩
      have hone := Tally.add_counts maxLineas [] q
      rw [if_pos rfl, if_pos rfl, ← hone]
      rfl

end Lines

/-- A script that is run: whether it can open the file for writing is given with it. -/
inductive Orden where
  | agregar (producto : Text) (abre : Bool)
  | borrar (abre : Bool)

/-- What it does to the file. -/
def Orden.ejecutar (archivo : Option Text) : Orden → Option Text
  | .agregar producto abre => (agregarProducto (some producto) abre archivo).2
  | .borrar abre => borrarCarrito abre archivo

/-- What has been put into the cart since it was emptied. -/
def Orden.puestos (ps : List Text) : Orden → List Text
  | .agregar producto abre => if abre then ps ++ [producto] else ps
  | .borrar abre => if abre then [] else ps

/-- **One script.** -/
theorem holds_of_orden {archivo : Option Text} {ps : List Text} (h : Holds archivo ps)
    (hps : ∀ p ∈ ps, Nombre p) {o : Orden} (ho : ∀ p abre, o = .agregar p abre → Nombre p) :
    Holds (o.ejecutar archivo) (o.puestos ps) ∧ ∀ p ∈ o.puestos ps, Nombre p := by
  cases o with
  | agregar q abre =>
    have hq := ho q abre rfl
    refine ⟨(agregarProducto_holds h hps hq abre).2, ?_⟩
    cases abre
    · exact hps
    · exact List.forall_mem_append.mpr ⟨hps, List.forall_mem_singleton.mpr hq⟩
  | borrar abre =>
    cases abre
    · exact ⟨h, hps⟩
    · exact ⟨.inl rfl, by simp [Orden.puestos]⟩

theorem holds_of_run {os : List Orden} (hos : ∀ p abre, Orden.agregar p abre ∈ os → Nombre p)
    {archivo : Option Text} {ps : List Text} (h : Holds archivo ps) (hps : ∀ p ∈ ps, Nombre p) :
    Holds (os.foldl Orden.ejecutar archivo) (os.foldl Orden.puestos ps) ∧
      ∀ p ∈ os.foldl Orden.puestos ps, Nombre p := by
  induction os generalizing archivo ps with
  | nil => exact ⟨h, hps⟩
  | cons o os ih =>
    obtain ⟨h', hps'⟩ := holds_of_orden h hps (o := o) fun p abre heq =>
      hos p abre (heq ▸ List.mem_cons_self)
    exact ih (fun p abre hmem => hos p abre (List.mem_cons_of_mem o hmem)) h' hps'

/-- **The cart is what was put into it.**  After any run of the scripts on names, the file has the
first thirty-two different ones since it was emptied, in that order, each with the number of times
it was put in.  What is put in next is refused exactly if it has no line and there are thirty-two;
its number is never misread. -/
theorem cart_of_run {os : List Orden} (hos : ∀ p abre, Orden.agregar p abre ∈ os → Nombre p)
    {archivo : Option Text} (h : archivo = none ∨ archivo = some []) :
    Holds (os.foldl Orden.ejecutar archivo) (os.foldl Orden.puestos []) ∧
      ∀ q abre, Nombre q → (agregarProducto (some q) abre (os.foldl Orden.ejecutar archivo)).1 =
        if q ∈ (Tally.firsts (os.foldl Orden.puestos [])).take maxLineas ∨
            (Tally.firsts (os.foldl Orden.puestos [])).length < maxLineas then
          if abre then .actualizado else .errorCritico
        else .limite := by
  have hstart : Holds archivo [] := by
    rcases h with rfl | rfl
    · exact .inr ⟨rfl, rfl⟩
    · exact .inl rfl
  obtain ⟨hholds, hnames⟩ := holds_of_run hos hstart (by simp)
  exact ⟨hholds, fun q abre hq => (agregarProducto_holds hholds hnames hq abre).1⟩

/-- Two products of the shop, one of them twice. -/
def compra : List Orden :=
  [.agregar "Berserk Manga".toList true, .borrar true, .agregar "One Piece Luffy".toList true,
    .agregar "Berserk Manga".toList true, .agregar "One Piece Luffy".toList true]

theorem cart_of_run_compra :
    compra.foldl Orden.ejecutar none = some "One Piece Luffy x2\nBerserk Manga\n".toList := by
  have hluffy : Nombre "One Piece Luffy".toList :=
    ⟨by decide, by decide +kernel, by decide, by decide⟩
  have hberserk : Nombre "Berserk Manga".toList :=
    ⟨by decide, by decide +kernel, by decide, by decide⟩
  have hnames : ∀ p abre, Orden.agregar p abre ∈ compra → Nombre p := by
    intro p abre hmem
    simp only [compra, List.mem_cons, Orden.agregar.injEq, reduceCtorEq, List.not_mem_nil,
      or_false, false_or] at hmem
    rcases hmem with ⟨rfl, -⟩ | ⟨rfl, -⟩ | ⟨rfl, -⟩ | ⟨rfl, -⟩ <;> assumption
  rcases (cart_of_run hnames (.inl rfl)).1 with h | ⟨-, h⟩
  · rw [h]
    decide +kernel
  · exact absurd h (by decide)

end Carrito
end BareHttp
