import SingleFile.Proofs.Number.Shortest
import SingleFile.Proofs.Text.Search

/-!
# The text of a double names it

The text of a number is a sign and its digits, laid out in one of several ways (`layout`).  Each of
them is a text in decimal notation (`Decimal`) that names what the digits do (`exists_layout`), and
`valueOf` reads from such a text what it names (`Decimal.valueOf_chars`).  Since the digits of a double
round to it and to no other double, two doubles with one text are one (`text_injective`).
-/

namespace SingleFile.Binary64

/-! ### Digits and their layout -/

/-- The text of `d * 10 ^ k` from the digits of `d`. -/
def layout (ds : List Char) (k : Int) : List Char :=
  let point : Int := ds.length + k
  if 0 < point ∧ point ≤ 16 then
    let n := point.toNat
    if ds.length ≤ n then ds ++ List.replicate (n - ds.length) '0' ++ ['.', '0']
    else ds.take n ++ '.' :: ds.drop n
  else if -5 < point ∧ point ≤ 0 then
    ['0', '.'] ++ List.replicate (-point).toNat '0' ++ ds
  else
    let e := point - 1
    let tail := if e < 0 then '-' :: decimal (-e).toNat else '+' :: decimal e.toNat
    match ds with
    | [] => []
    | [c] => c :: 'e' :: tail
    | c :: r => c :: '.' :: r ++ 'e' :: tail

def body (x : Binary64) : List Char :=
  if x.significand = 0 then ['0', '.', '0'] else layout (decimal x.digits.1) x.digits.2

theorem toList_text (x : Binary64) :
    x.text.toList = (if x.negative then ['-'] else []) ++ x.body := by
  unfold text body
  by_cases hx : x.significand = 0
  · simp only [if_pos hx]
    exact String.toList_ofList
  · simp only [if_neg hx]
    exact String.toList_ofList

/-! ### Decimal notation -/

def signed (e : Int) : List Char :=
  if e < 0 then '-' :: decimal (-e).toNat else '+' :: decimal e.toNat

/-- A text that can be told from the digits of a whole number: digits, with a point and more digits, or
with an exponent, or both. -/
structure Decimal where
  whole : List Char
  fraction : Option (List Char)
  exponent : Option Int
  whole_ne : whole ≠ []
  digits : ∀ c ∈ whole ++ fraction.getD [], c.isDigit = true
  marked : fraction ≠ none ∨ exponent ≠ none

namespace Decimal

def pointed (t : Decimal) : List Char :=
  match t.fraction with
  | some ds => '.' :: ds
  | none => []

def scaled (t : Decimal) : List Char :=
  match t.exponent with
  | some e => 'e' :: signed e
  | none => []

def chars (t : Decimal) : List Char := t.whole ++ t.pointed ++ t.scaled

/-- The number that the text names. -/
def value (t : Decimal) : ℚ :=
  Nat.ofDigitChars 10 (t.whole ++ t.fraction.getD []) 0 *
    10 ^ (t.exponent.getD 0 - (t.fraction.getD []).length)

end Decimal

def exponentOf : List Char → Int
  | '-' :: ds => -(Nat.ofDigitChars 10 ds 0 : Int)
  | '+' :: ds => Nat.ofDigitChars 10 ds 0
  | _ => 0

/-- The number that digits with a point and an exponent name. -/
def valueOf (cs : List Char) : ℚ :=
  let front := cs.takeWhile (· ≠ 'e')
  let fraction := (front.dropWhile (· ≠ '.')).drop 1
  Nat.ofDigitChars 10 (front.takeWhile (· ≠ '.') ++ fraction) 0 *
    10 ^ (exponentOf ((cs.dropWhile (· ≠ 'e')).drop 1) - fraction.length)

theorem isDigit_of_mem_decimal {n : Nat} {c : Char} (hc : c ∈ decimal n) : c.isDigit = true :=
  Nat.isDigit_of_mem_toDigits (by omega) (by omega) hc

theorem ofDigitChars_decimal (n : Nat) : Nat.ofDigitChars 10 (decimal n) 0 = n :=
  Nat.ofDigitChars_ten_toDigits

theorem decimal_injective {n m : Nat} (h : decimal n = decimal m) : n = m := by
  rw [← ofDigitChars_decimal n, h, ofDigitChars_decimal]

theorem exponentOf_signed (e : Int) : exponentOf (signed e) = e := by
  unfold signed
  split
  · rw [exponentOf, ofDigitChars_decimal]
    omega
  · rw [exponentOf, ofDigitChars_decimal]
    omega

def IsNumeral (c : Char) : Prop :=
  c.isDigit = true ∨ c = '.' ∨ c = 'e' ∨ c = '-' ∨ c = '+'

instance : DecidablePred IsNumeral := fun c =>
  inferInstanceAs (Decidable (c.isDigit = true ∨ c = '.' ∨ c = 'e' ∨ c = '-' ∨ c = '+'))

namespace Decimal

variable {t : Decimal} {c : Char}

theorem isDigit_of_mem_whole (hc : c ∈ t.whole) : c.isDigit = true :=
  t.digits c (List.mem_append_left _ hc)

theorem pointed_cases (t : Decimal) :
    t.pointed = '.' :: t.fraction.getD [] ∨ t.pointed = [] ∧ t.fraction.getD [] = [] := by
  unfold pointed
  cases t.fraction with
  | some ds => exact .inl rfl
  | none => exact .inr ⟨rfl, rfl⟩

theorem scaled_cases (t : Decimal) :
    t.scaled = 'e' :: signed (t.exponent.getD 0) ∨ t.scaled = [] ∧ t.exponent.getD 0 = 0 := by
  unfold scaled
  cases t.exponent with
  | some e => exact .inl rfl
  | none => exact .inr ⟨rfl, rfl⟩

theorem eq_or_isDigit_of_mem_pointed (hc : c ∈ t.pointed) : c = '.' ∨ c.isDigit = true := by
  rcases pointed_cases t with h | ⟨h, -⟩
  · rw [h] at hc
    rcases List.mem_cons.1 hc with rfl | hc
    · exact .inl rfl
    · exact .inr (t.digits c (List.mem_append_right _ hc))
  · rw [h] at hc
    exact absurd hc List.not_mem_nil

/-- The text is read part by part. -/
theorem valueOf_chars (t : Decimal) : valueOf t.chars = t.value := by
  have hdigit {c : Char} (hc : c.isDigit = true) : c ≠ 'e' ∧ c ≠ '.' := by
    constructor <;> rintro rfl <;> exact absurd hc (by decide)
  have hfront : ∀ c ∈ t.whole ++ t.pointed, decide (c ≠ 'e') = true := by
    intro c hc
    rcases List.mem_append.1 hc with hc | hc
    · exact decide_eq_true (hdigit (isDigit_of_mem_whole hc)).1
    rcases eq_or_isDigit_of_mem_pointed hc with rfl | hc
    · decide
    · exact decide_eq_true (hdigit hc).1
  have hstop : ∀ c ∈ t.scaled.head?, decide (c ≠ 'e') = false := by
    rcases scaled_cases t with h | ⟨h, -⟩ <;> rw [h] <;> rintro c ⟨⟩
    decide
  have hwhole : ∀ c ∈ t.whole, decide (c ≠ '.') = true := fun c hc =>
    decide_eq_true (hdigit (isDigit_of_mem_whole hc)).2
  have hpoint : ∀ c ∈ t.pointed.head?, decide (c ≠ '.') = false := by
    rcases pointed_cases t with h | ⟨h, -⟩ <;> rw [h] <;> rintro c ⟨⟩
    decide
  have hfraction : t.pointed.drop 1 = t.fraction.getD [] := by
    rcases pointed_cases t with h | ⟨h, hnil⟩
    · rw [h, List.drop_one, List.tail_cons]
    · rw [h, hnil, List.drop_nil]
  have hexponent : exponentOf (t.scaled.drop 1) = t.exponent.getD 0 := by
    rcases scaled_cases t with h | ⟨h, hzero⟩
    · rw [h, List.drop_one, List.tail_cons, exponentOf_signed]
    · rw [h, hzero, List.drop_nil]
      rfl
  unfold valueOf chars value
  dsimp only
  rw [takeWhile_append_of_head hfront hstop, dropWhile_append_of_head hfront hstop,
    takeWhile_append_of_head hwhole hpoint, dropWhile_append_of_head hwhole hpoint, hfraction,
    hexponent]

theorem isNumeral_of_mem_chars (hc : c ∈ t.chars) : IsNumeral c := by
  rcases List.mem_append.1 hc with hc | hc
  · rcases List.mem_append.1 hc with hc | hc
    · exact .inl (isDigit_of_mem_whole hc)
    rcases eq_or_isDigit_of_mem_pointed hc with rfl | hc
    · simp [IsNumeral]
    · exact .inl hc
  rcases scaled_cases t with h | ⟨h, -⟩
  · rw [h, signed] at hc
    rcases List.mem_cons.1 hc with rfl | hc
    · simp [IsNumeral]
    split at hc <;> rcases List.mem_cons.1 hc with rfl | hc
    · simp [IsNumeral]
    · exact .inl (isDigit_of_mem_decimal hc)
    · simp [IsNumeral]
    · exact .inl (isDigit_of_mem_decimal hc)
  · rw [h] at hc
    exact absurd hc List.not_mem_nil

/-- A digit comes first. -/
theorem exists_chars_eq_cons (t : Decimal) : ∃ c r, t.chars = c :: r ∧ c.isDigit = true := by
  obtain ⟨c, r, hw⟩ := List.exists_cons_of_ne_nil t.whole_ne
  refine ⟨c, r ++ t.pointed ++ t.scaled, by rw [chars, hw]; rfl, ?_⟩
  exact isDigit_of_mem_whole (t := t) (by rw [hw]; exact List.mem_cons_self)

/-- The text of a whole number has no such character. -/
theorem exists_mem_chars (t : Decimal) : ∃ c ∈ t.chars, c = '.' ∨ c = 'e' := by
  rcases t.marked with h | h
  · obtain ⟨ds, hds⟩ := Option.ne_none_iff_exists'.1 h
    exact ⟨'.', by simp [chars, pointed, hds], .inl rfl⟩
  · obtain ⟨e, he⟩ := Option.ne_none_iff_exists'.1 h
    exact ⟨'e', by simp [chars, scaled, he], .inr rfl⟩

end Decimal

/-! ### Digits are laid out in decimal notation -/

section Layout

variable {ds : List Char} {k : Int}

theorem isDigit_append_zeros {a b : List Char} {n : Nat} (ha : ∀ c ∈ a, c.isDigit = true)
    (hb : ∀ c ∈ b, c.isDigit = true) : ∀ c ∈ a ++ List.replicate n '0' ++ b, c.isDigit = true := by
  intro c hc
  rcases List.mem_append.1 hc with hc | hc
  · rcases List.mem_append.1 hc with hc | hc
    · exact ha c hc
    · rw [(List.mem_replicate.1 hc).2]
      rfl
  · exact hb c hc

/-- All digits are in front of the point. -/
theorem exists_layout_front (hds : ∀ c ∈ ds, c.isDigit = true) (hne : ds ≠ []) (n : Nat) :
    ∃ t : Decimal, ds ++ List.replicate n '0' ++ ['.', '0'] = t.chars ∧
      t.value = Nat.ofDigitChars 10 ds 0 * 10 ^ (n : Int) := by
  have hzero : ∀ c ∈ ['0'], c.isDigit = true := List.forall_mem_singleton.2 rfl
  refine ⟨⟨ds ++ List.replicate n '0', some ['0'], none, by simp [hne],
    isDigit_append_zeros hds hzero, .inl (by simp)⟩, ?_, ?_⟩
  · simp [Decimal.chars, Decimal.pointed, Decimal.scaled]
  · simp [Decimal.value, Nat.ofDigitChars_append, Nat.ofDigitChars_replicate_zero,
      Nat.ofDigitChars_cons]
    ring

/-- The point is among the digits. -/
theorem exists_layout_among (hds : ∀ c ∈ ds, c.isDigit = true) (hne : ds ≠ []) {n : Nat}
    (hpos : 0 < n) (hk : -((ds.drop n).length : Int) = k) :
    ∃ t : Decimal, ds.take n ++ '.' :: ds.drop n = t.chars ∧
      t.value = Nat.ofDigitChars 10 ds 0 * 10 ^ k := by
  refine ⟨⟨ds.take n, some (ds.drop n), none, by simp [hne]; omega, by simpa using hds,
    .inl (by simp)⟩, ?_, ?_⟩
  · simp [Decimal.chars, Decimal.pointed, Decimal.scaled]
  · rw [← hk]
    simp [Decimal.value]

/-- All digits are behind the point. -/
theorem exists_layout_behind (hds : ∀ c ∈ ds, c.isDigit = true) {n : Nat}
    (hk : -((n + ds.length : Nat) : Int) = k) :
    ∃ t : Decimal, ['0', '.'] ++ List.replicate n '0' ++ ds = t.chars ∧
      t.value = Nat.ofDigitChars 10 ds 0 * 10 ^ k := by
  have hzero : ∀ c ∈ ['0'], c.isDigit = true := List.forall_mem_singleton.2 rfl
  refine ⟨⟨['0'], some (List.replicate n '0' ++ ds), none, by simp, ?_, .inl (by simp)⟩, ?_, ?_⟩
  · simpa using isDigit_append_zeros (n := n) hzero hds
  · simp [Decimal.chars, Decimal.pointed, Decimal.scaled]
  · rw [← hk]
    simp [Decimal.value, Nat.ofDigitChars_append, Nat.ofDigitChars_replicate_zero,
      Nat.ofDigitChars_cons]

/-- One digit stands in front of the point, if there is one, and an exponent behind all. -/
theorem exists_layout_scaled {c : Char} {r : List Char} (hds : ∀ x ∈ c :: r, x.isDigit = true)
    {e : Int} (hk : e - (r.length : Int) = k) :
    ∃ t : Decimal, (match r with
        | [] => c :: 'e' :: signed e
        | _ => c :: '.' :: r ++ 'e' :: signed e) = t.chars ∧
      t.value = Nat.ofDigitChars 10 (c :: r) 0 * 10 ^ k := by
  cases r with
  | nil =>
    refine ⟨⟨[c], none, some e, by simp, by simpa using hds, .inr (by simp)⟩, ?_, ?_⟩
    · simp [Decimal.chars, Decimal.pointed, Decimal.scaled]
    · simp [Decimal.value, ← hk]
  | cons c' r =>
    refine ⟨⟨[c], some (c' :: r), some e, by simp, by simpa using hds, .inl (by simp)⟩, ?_, ?_⟩
    · simp [Decimal.chars, Decimal.pointed, Decimal.scaled]
    · simp [Decimal.value, ← hk]

/-- **Digits are laid out as a text that names their value**, with a place for the point. -/
theorem exists_layout (hds : ∀ c ∈ ds, c.isDigit = true) (hne : ds ≠ []) :
    ∃ t : Decimal, layout ds k = t.chars ∧ t.value = Nat.ofDigitChars 10 ds 0 * 10 ^ k := by
  unfold layout
  dsimp only
  split
  · next hpoint =>
    split
    · next hle =>
      have hk : ((((ds.length : Int) + k).toNat - ds.length : Nat) : Int) = k := by omega
      have hfront := exists_layout_front hds hne (((ds.length : Int) + k).toNat - ds.length)
      rwa [hk] at hfront
    · next hle => exact exists_layout_among hds hne (by omega) (by rw [List.length_drop]; omega)
  split
  · next hpoint => exact exists_layout_behind hds (by omega)
  · cases ds with
    | nil => exact absurd rfl hne
    | cons c r =>
      have hscaled := exists_layout_scaled hds (e := ((c :: r).length : Int) + k - 1) (k := k)
        (by rw [List.length_cons]; omega)
      cases r <;> exact hscaled

end Layout

/-- The text of a number without its sign is in decimal notation. -/
theorem exists_body (x : Binary64) :
    ∃ t : Decimal, x.body = t.chars ∧
      t.value = if x.significand = 0 then 0 else (x.digits.1 * 10 ^ x.digits.2 : ℚ) := by
  unfold body
  split
  · refine ⟨⟨['0'], some ['0'], none, by simp, by simp, .inl (by simp)⟩, rfl, ?_⟩
    simp [Decimal.value, Nat.ofDigitChars_cons]
  · obtain ⟨t, ht, hvalue⟩ := exists_layout (k := x.digits.2)
      (fun c hc => isDigit_of_mem_decimal (n := x.digits.1) hc) Nat.toDigits_ne_nil
    rw [ofDigitChars_decimal] at hvalue
    exact ⟨t, ht, hvalue⟩

theorem isNumeral_of_mem_body {x : Binary64} {c : Char} (hc : c ∈ x.body) : IsNumeral c := by
  obtain ⟨t, ht, -⟩ := exists_body x
  rw [ht] at hc
  exact Decimal.isNumeral_of_mem_chars hc

theorem exists_body_eq_cons (x : Binary64) : ∃ c r, x.body = c :: r ∧ c.isDigit = true := by
  obtain ⟨t, ht, -⟩ := exists_body x
  rw [ht]
  exact t.exists_chars_eq_cons

theorem exists_mem_body (x : Binary64) : ∃ c ∈ x.body, c = '.' ∨ c = 'e' := by
  obtain ⟨t, ht, -⟩ := exists_body x
  rw [ht]
  exact t.exists_mem_chars

/-- **The text of a number names its digits.** -/
theorem valueOf_body (x : Binary64) :
    valueOf x.body = if x.significand = 0 then 0 else (x.digits.1 * 10 ^ x.digits.2 : ℚ) := by
  obtain ⟨t, ht, hvalue⟩ := exists_body x
  rw [ht, Decimal.valueOf_chars, hvalue]

/-! ### One text, one double -/

theorem valueOf_body_eq_zero_iff {x : Binary64} (hx : x.IsDouble) :
    valueOf x.body = 0 ↔ x.significand = 0 := by
  rw [valueOf_body]
  by_cases h0 : x.significand = 0
  · simp [h0]
  · have hd : x.digits.1 ≠ 0 := ne_zero_of_reads h0 (reads_iff.2 (roundsTo_digits hx h0))
    have hten : (10 : ℚ) ^ x.digits.2 ≠ 0 := zpow_ne_zero _ (by norm_num)
    rw [if_neg h0]
    exact ⟨fun h => absurd h (mul_ne_zero (Nat.cast_ne_zero.2 hd) hten), fun h => absurd h h0⟩

/-- The text without the sign names the magnitude. -/
theorem body_injective {x y : Binary64} (hx : x.IsDouble) (hy : y.IsDouble) (h : x.body = y.body) :
    x.significand = y.significand ∧ x.exponent = y.exponent := by
  have hzero : x.significand = 0 ↔ y.significand = 0 := by
    rw [← valueOf_body_eq_zero_iff hx, ← valueOf_body_eq_zero_iff hy, h]
  by_cases hx0 : x.significand = 0
  · have hy0 := hzero.1 hx0
    have hpos : 0 < 2 ^ 52 := Nat.two_pow_pos 52
    have hxe : x.exponent = minExponent := hx.full.resolve_left (by omega)
    have hye : y.exponent = minExponent := hy.full.resolve_left (by omega)
    exact ⟨hx0.trans hy0.symm, hxe.trans hye.symm⟩
  · have hy0 : y.significand ≠ 0 := fun h0 => hx0 (hzero.2 h0)
    have hvalue := congrArg valueOf h
    rw [valueOf_body, valueOf_body, if_neg hx0, if_neg hy0] at hvalue
    have hround := roundsTo_digits hx hx0
    rw [hvalue] at hround
    exact hround.unique hx hy (roundsTo_digits hy hy0)

/-- **Two doubles with one text are one double.** -/
theorem text_injective {x y : Binary64} (hx : x.IsDouble) (hy : y.IsDouble)
    (h : x.text = y.text) : x = y := by
  have hminus (x : Binary64) {r : List Char} : x.body ≠ '-' :: r := by
    obtain ⟨c, _, hc, hdigit⟩ := exists_body_eq_cons x
    rw [hc]
    rintro ⟨⟩
    exact absurd hdigit (by decide)
  have h := congrArg String.toList h
  rw [toList_text, toList_text] at h
  obtain ⟨sx, mx, ex⟩ := x
  obtain ⟨sy, my, ey⟩ := y
  have hsign : sx = sy ∧ body ⟨sx, mx, ex⟩ = body ⟨sy, my, ey⟩ := by
    cases sx <;> cases sy
    · exact ⟨rfl, h⟩
    · exact absurd h (hminus _)
    · exact absurd h.symm (hminus _)
    · exact ⟨rfl, (List.cons.inj h).2⟩
  obtain ⟨hm, he⟩ := body_injective hx hy hsign.2
  rw [Binary64.mk.injEq]
  exact ⟨hsign.1, hm, he⟩

/-- Neighbours differ in the last of seventeen digits. -/
example : (⟨true, 2 ^ 52, -52⟩ : Binary64).text = "-1.0" ∧
    (⟨true, 2 ^ 52 + 1, -52⟩ : Binary64).text = "-1.0000000000000002" := by decide +kernel

end SingleFile.Binary64
