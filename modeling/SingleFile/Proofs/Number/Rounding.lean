import Mathlib.Algebra.Order.Field.Rat
import Mathlib.Tactic.Linarith
import Mathlib.Tactic.NormNum
import Mathlib.Tactic.Positivity
import Mathlib.Tactic.Ring
import SingleFile.Number.Binary64

/-!
# What rounding gives

A double is stored with a significand as large as it can be (`IsDouble`), so that no number is stored
in two ways.  Rounding to `2 ^ e` is off by half of it at most (`quotientAt_bounds`), and the lengths
of a fraction's parts say how large it is (`ratio_bounds`); from these, what `ofRatio` gives is a
double (`isDouble_ofRatio`), and so is whatever is made by rounding after rounding
(`isDouble_ofDecimal`).
-/

namespace SingleFile.Binary64

/-- A double as it is stored: the significand is as large as it can be, unless the exponent is the
smallest one. -/
structure IsDouble (x : Binary64) : Prop where
  lt : x.significand < 2 ^ 53
  ge : minExponent ≤ x.exponent
  le : x.exponent ≤ 971
  full : 2 ^ 52 ≤ x.significand ∨ x.exponent = minExponent

theorem isDouble_zero (negative : Bool) : (zero negative).IsDouble :=
  ⟨Nat.two_pow_pos 53, le_refl minExponent, show minExponent ≤ 971 by decide, .inr rfl⟩

theorem IsDouble.withSign {x : Binary64} (hx : x.IsDouble) (negative : Bool) :
    { x with negative }.IsDouble := ⟨hx.lt, hx.ge, hx.le, hx.full⟩

/-! ### Lengths -/

theorem bitLength_of_ne_zero {n : Nat} (hn : n ≠ 0) : bitLength n = n.log2 + 1 := if_neg hn

theorem lt_two_pow_bitLength (n : Nat) : n < 2 ^ bitLength n := by
  by_cases hn : n = 0
  · rw [hn]
    decide
  · rw [bitLength_of_ne_zero hn]
    exact Nat.lt_log2_self

theorem two_pow_bitLength_le {n : Nat} (hn : n ≠ 0) : 2 ^ bitLength n ≤ 2 * n := by
  rw [bitLength_of_ne_zero hn, Nat.pow_succ, Nat.mul_comm]
  exact Nat.mul_le_mul_left 2 (Nat.log2_self_le hn)

theorem bitLength_le_of_lt {n k : Nat} (h : n < 2 ^ k) : bitLength n ≤ k := by
  by_cases hn : n = 0
  · rw [hn]
    exact Nat.zero_le _
  · rw [bitLength_of_ne_zero hn]
    exact (Nat.log2_lt hn).2 h

theorem bitLength_mul_two_pow {m : Nat} (hm : m ≠ 0) (n : Nat) :
    bitLength (m * 2 ^ n) = bitLength m + n := by
  induction n with
  | zero => simp
  | succ n ih =>
    have hne : m * 2 ^ n ≠ 0 := Nat.mul_ne_zero hm (by simp)
    have hdouble : m * 2 ^ (n + 1) = 2 * (m * 2 ^ n) := by
      rw [Nat.pow_succ]
      ring
    rw [hdouble, bitLength_of_ne_zero (by omega), Nat.log2_two_mul hne,
      ← bitLength_of_ne_zero hne, ih, Nat.add_assoc]

/-- A fraction is as large as the lengths of its parts say, up to a factor of two. -/
theorem ratio_bounds {num den : Nat} (hnum : num ≠ 0) (hden : den ≠ 0) :
    (2 : ℚ) ^ ((bitLength num : Int) - bitLength den - 1) ≤ num / den ∧
      (num / den : ℚ) ≤ 2 ^ ((bitLength num : Int) - bitLength den + 1) := by
  have htwo : (2 : ℚ) ≠ 0 := by norm_num
  have hpos : (0 : ℚ) < den := Nat.cast_pos.2 (Nat.pos_of_ne_zero hden)
  have hlow : ((2 : ℚ) ^ bitLength num : ℚ) ≤ 2 * num := by
    exact_mod_cast two_pow_bitLength_le hnum
  have hlow' : ((2 : ℚ) ^ bitLength den : ℚ) ≤ 2 * den := by
    exact_mod_cast two_pow_bitLength_le hden
  have hhigh : (num : ℚ) ≤ 2 ^ bitLength num := by
    exact_mod_cast (lt_two_pow_bitLength num).le
  have hhigh' : (den : ℚ) ≤ 2 ^ bitLength den := by
    exact_mod_cast (lt_two_pow_bitLength den).le
  have hunit : (0 : ℚ) < 2 ^ bitLength den := by positivity
  rw [zpow_sub_one₀ htwo, zpow_add_one₀ htwo, zpow_sub₀ htwo, zpow_natCast, zpow_natCast]
  constructor
  · rw [div_mul_eq_mul_div, div_le_div_iff₀ hunit hpos]
    calc (2 ^ bitLength num * 2⁻¹ * den : ℚ)
        ≤ 2 * num * 2⁻¹ * 2 ^ bitLength den := by gcongr
      _ = num * 2 ^ bitLength den := by ring
  · rw [div_mul_eq_mul_div, div_le_div_iff₀ hpos hunit]
    calc (num * 2 ^ bitLength den : ℚ) ≤ 2 ^ bitLength num * (2 * den) := by gcongr
      _ = 2 ^ bitLength num * 2 * den := by ring

/-! ### One rounding -/

theorem roundDiv_bounds (num : Nat) {den : Nat} (hden : den ≠ 0) :
    2 * num ≤ (2 * roundDiv num den + 1) * den ∧
      2 * roundDiv num den * den ≤ 2 * num + den := by
  have hdiv := Nat.div_add_mod num den
  have hmod := Nat.mod_lt num (Nat.pos_of_ne_zero hden)
  have hq : roundDiv num den = num / den ∧ 2 * (num % den) ≤ den ∨
      roundDiv num den = num / den + 1 ∧ den ≤ 2 * (num % den) := by
    unfold roundDiv
    dsimp only
    split
    · exact .inl ⟨rfl, by omega⟩
    split
    · exact .inr ⟨rfl, by omega⟩
    split
    · exact .inl ⟨rfl, by omega⟩
    · exact .inr ⟨rfl, by omega⟩
  generalize num / den = q at *
  generalize num % den = r at *
  rcases hq with ⟨hq, hr⟩ | ⟨hq, hr⟩ <;> rw [hq] <;> constructor <;> linarith

/-- Rounding to a multiple of `2 ^ e` is off by half of it at most. -/
theorem quotientAt_bounds (num : Nat) {den : Nat} (hden : den ≠ 0) (e : Int) :
    (num / den : ℚ) ≤ (quotientAt num den e + 1 / 2) * 2 ^ e ∧
      (quotientAt num den e - 1 / 2) * 2 ^ e ≤ (num / den : ℚ) := by
  have hpos : (0 : ℚ) < den := Nat.cast_pos.2 (Nat.pos_of_ne_zero hden)
  unfold quotientAt
  split
  · next he =>
    obtain ⟨n, rfl⟩ := Int.eq_ofNat_of_zero_le he
    have hunit : (0 : ℚ) < 2 ^ n := by positivity
    have hne : den * 2 ^ n ≠ 0 := by positivity
    obtain ⟨hle, hge⟩ := roundDiv_bounds num hne
    rw [Int.toNat_natCast, zpow_natCast, div_le_iff₀ hpos, le_div_iff₀ hpos]
    generalize roundDiv num (den * 2 ^ n) = q at *
    have hle' : (2 * num : ℚ) ≤ (2 * q + 1) * (den * 2 ^ n) := by exact_mod_cast hle
    have hge' : (2 * q * (den * 2 ^ n) : ℚ) ≤ 2 * num + den * 2 ^ n := by exact_mod_cast hge
    constructor <;> linarith
  · next he =>
    obtain ⟨n, hn⟩ := Int.eq_ofNat_of_zero_le (a := -e) (by omega)
    have hunit : (0 : ℚ) < 2 ^ n := by positivity
    obtain ⟨hle, hge⟩ := roundDiv_bounds (num * 2 ^ n) hden
    have hexp : e = -n := by omega
    rw [hn, Int.toNat_natCast, hexp, zpow_neg, zpow_natCast, ← div_eq_mul_inv, ← div_eq_mul_inv,
      div_le_div_iff₀ hpos hunit, div_le_div_iff₀ hunit hpos]
    generalize roundDiv (num * 2 ^ n) den = q at *
    have hle' : (2 * (num * 2 ^ n) : ℚ) ≤ (2 * q + 1) * den := by exact_mod_cast hle
    have hge' : (2 * q * den : ℚ) ≤ 2 * (num * 2 ^ n) + den := by exact_mod_cast hge
    constructor <;> linarith

/-- A number of 53 binary digits or more is rounded to as many. -/
theorem le_quotientAt (num : Nat) {den : Nat} (hden : den ≠ 0) {e : Int}
    (h : (2 : ℚ) ^ (e + 52) ≤ num / den) : 2 ^ 52 ≤ quotientAt num den e := by
  have hunit : (0 : ℚ) < 2 ^ e := zpow_pos (by norm_num) e
  have hle := (quotientAt_bounds num hden e).1
  rw [zpow_add₀ (by norm_num), mul_comm] at h
  have hq : (2 ^ 52 : ℚ) ≤ quotientAt num den e + 1 / 2 :=
    le_of_mul_le_mul_right (h.trans hle) hunit
  by_contra hlt
  have hcast : (quotientAt num den e + 1 : ℚ) ≤ 2 ^ 52 := by exact_mod_cast Nat.lt_of_not_le hlt
  linarith

/-- A number that has 54 digits is rounded to 53 in units twice as large. -/
theorem quotientAt_succ (num : Nat) {den : Nat} (hden : den ≠ 0) {e : Int}
    (h : (num / den : ℚ) ≤ 2 ^ (e + 54)) (hq : 2 ^ 53 ≤ quotientAt num den e) :
    2 ^ 52 ≤ quotientAt num den (e + 1) ∧ quotientAt num den (e + 1) ≤ 2 ^ 53 := by
  have hunit : (0 : ℚ) < 2 ^ e := zpow_pos (by norm_num) e
  have hge := (quotientAt_bounds num hden e).2
  obtain ⟨hle, hge'⟩ := quotientAt_bounds num hden (e + 1)
  rw [zpow_add₀ (by norm_num), mul_comm] at h
  rw [zpow_add_one₀ (by norm_num), mul_comm (2 ^ e), ← mul_assoc] at hle hge'
  have hq' : (2 ^ 53 : ℚ) ≤ quotientAt num den e := by exact_mod_cast hq
  have hup : (quotientAt num den e - 1 / 2 : ℚ) ≤ (quotientAt num den (e + 1) + 1 / 2) * 2 :=
    le_of_mul_le_mul_right (hge.trans hle) hunit
  have hdown : ((quotientAt num den (e + 1) - 1 / 2) * 2 : ℚ) ≤ 2 ^ 54 :=
    le_of_mul_le_mul_right (hge'.trans h) hunit
  constructor
  · by_contra hlt
    have hcast : (quotientAt num den (e + 1) + 1 : ℚ) ≤ 2 ^ 52 := by
      exact_mod_cast Nat.lt_of_not_le hlt
    linarith
  · by_contra hlt
    have hcast : (2 ^ 53 + 1 : ℚ) ≤ quotientAt num den (e + 1) := by
      exact_mod_cast Nat.lt_of_not_le hlt
    linarith

/-- The exponent at which a quotient is rounded, with what the quotient is there. -/
theorem significand_bounds {num den : Nat} (hnum : num ≠ 0) (hden : den ≠ 0) {e₀ e : Int}
    (he₀ : e₀ = max minExponent ((bitLength num : Int) - bitLength den - 53))
    (he : e = if 2 ^ 53 ≤ quotientAt num den e₀ then e₀ + 1 else e₀) :
    quotientAt num den e ≤ 2 ^ 53 ∧ e₀ ≤ e ∧
      (2 ^ 52 ≤ quotientAt num den e ∨ e = minExponent) := by
  obtain ⟨hlow, hhigh⟩ := ratio_bounds hnum hden
  have hle : (num / den : ℚ) ≤ 2 ^ (e₀ + 54) :=
    hhigh.trans (zpow_le_zpow_right₀ (by norm_num) (by omega))
  -- the lengths leave it open whether the quotient has 53 digits or 54 in units of `2 ^ e₀`
  by_cases hq : 2 ^ 53 ≤ quotientAt num den e₀
  · rw [if_pos hq] at he
    subst he
    obtain ⟨hl, hh⟩ := quotientAt_succ num hden hle hq
    exact ⟨hh, by omega, .inl hl⟩
  · rw [if_neg hq] at he
    subst he
    refine ⟨by omega, le_refl _, ?_⟩
    by_cases hmin : e = minExponent
    · exact .inr hmin
    · refine .inl (le_quotientAt num hden ?_)
      have hexp : e + 52 = (bitLength num : Int) - bitLength den - 1 := by omega
      rwa [hexp]

/-- **What a quotient is rounded to is a double**, with an exponent that is as large as the
quotient. -/
theorem isDouble_ofRatio_of_ne_zero {negative : Bool} {num den : Nat} {x : Binary64}
    (hnum : num ≠ 0) (hden : den ≠ 0) (h : ofRatio negative num den = some x) :
    x.IsDouble ∧ (bitLength num : Int) - bitLength den - 53 ≤ x.exponent := by
  rw [ofRatio, if_neg hnum] at h
  dsimp only at h
  generalize he₀ : max minExponent ((bitLength num : Int) - bitLength den - 53) = e₀ at h
  generalize he : (if 2 ^ 53 ≤ quotientAt num den e₀ then e₀ + 1 else e₀) = e at h
  obtain ⟨hm, hge, hfull⟩ := significand_bounds hnum hden he₀.symm he.symm
  generalize quotientAt num den e = m at h hm hfull
  -- rounding up may need one more digit
  by_cases hcarry : m = 2 ^ 53
  · rw [if_pos hcarry] at h
    split at h
    · exact nomatch h
    · next hmax =>
      cases h
      exact ⟨⟨by simp, show minExponent ≤ e + 1 by omega, Int.not_lt.1 hmax, .inl (le_refl _)⟩,
        show _ ≤ e + 1 by omega⟩
  · rw [if_neg hcarry] at h
    split at h
    · exact nomatch h
    · next hmax =>
      cases h
      exact ⟨⟨show m < 2 ^ 53 by omega, show minExponent ≤ e by omega, Int.not_lt.1 hmax, hfull⟩,
        show _ ≤ e by omega⟩

/-! ### Rounding after rounding -/

theorem isDouble_ofRatio {negative : Bool} {num den : Nat} {x : Binary64} (hden : den ≠ 0)
    (h : ofRatio negative num den = some x) : x.IsDouble := by
  by_cases hnum : num = 0
  · rw [ofRatio, if_pos hnum] at h
    cases h
    exact isDouble_zero negative
  · exact (isDouble_ofRatio_of_ne_zero hnum hden h).1

theorem isDouble_ofNat {n : Nat} {x : Binary64} (h : ofNat n = some x) : x.IsDouble :=
  isDouble_ofRatio Nat.one_ne_zero h

theorem ratio_ne_zero (x : Binary64) : x.ratio.2 ≠ 0 := by
  unfold ratio
  split <;> simp

theorem isDouble_mul {x y z : Binary64} (h : x.mul y = some z) : z.IsDouble :=
  isDouble_ofRatio (Nat.mul_ne_zero (ratio_ne_zero x) (ratio_ne_zero y)) h

/-- A whole number is so far from the smallest doubles that its double uses all digits. -/
theorem significand_ofNat {n : Nat} {x : Binary64} (hn : n ≠ 0) (h : ofNat n = some x) :
    x.significand ≠ 0 := by
  obtain ⟨hx, hexp⟩ := isDouble_ofRatio_of_ne_zero hn Nat.one_ne_zero h
  have hone : bitLength 1 = 1 := rfl
  have hmin : minExponent = -1074 := rfl
  rcases hx.full with hfull | hfull
  · have : 0 < 2 ^ 52 := Nat.two_pow_pos 52
    omega
  · omega

theorem ratio_fst_ne_zero {x : Binary64} (hx : x.significand ≠ 0) : x.ratio.1 ≠ 0 := by
  unfold ratio
  split
  · exact Nat.mul_ne_zero hx (by simp)
  · exact hx

theorem isDouble_div {x y z : Binary64} (hy : y.significand ≠ 0) (h : x.div y = some z) :
    z.IsDouble :=
  isDouble_ofRatio (Nat.mul_ne_zero (ratio_ne_zero x) (ratio_fst_ne_zero hy)) h

theorem isDouble_div_powerOfTen {n : Nat} {x y z : Binary64} (hy : powerOfTen n = some y)
    (h : x.div y = some z) : z.IsDouble :=
  isDouble_div (significand_ofNat (by simp) hy) h

theorem isDouble_scaleDown {fuel n : Nat} {x y : Binary64} (hx : x.IsDouble)
    (h : scaleDown fuel x n = some y) : y.IsDouble := by
  induction fuel generalizing x n with
  | zero =>
    rw [scaleDown] at h
    cases h
    exact hx
  | succ fuel ih =>
    rw [scaleDown] at h
    split at h
    · obtain ⟨p, hp, hdiv⟩ := Option.bind_eq_some_iff.1 h
      exact isDouble_div_powerOfTen hp hdiv
    split at h
    · cases h
      exact hx
    · obtain ⟨p, hp, h⟩ := Option.bind_eq_some_iff.1 h
      obtain ⟨z, hz, h⟩ := Option.bind_eq_some_iff.1 h
      exact ih (isDouble_div_powerOfTen hp hz) h

/-- **A number that is read is a double.** -/
theorem isDouble_ofDecimal {negative : Bool} {significand : Nat} {exponent : Int} {x : Binary64}
    (h : ofDecimal negative significand exponent = some x) : x.IsDouble := by
  obtain ⟨y, hy, h⟩ := Option.bind_eq_some_iff.1 h
  dsimp only at h
  split at h
  · split at h
    · obtain ⟨p, _, h⟩ := Option.bind_eq_some_iff.1 h
      obtain ⟨z, hz, h⟩ := Option.bind_eq_some_iff.1 h
      cases h
      exact (isDouble_mul hz).withSign negative
    split at h
    · cases h
      exact (isDouble_ofNat hy).withSign negative
    · exact nomatch h
  · obtain ⟨z, hz, h⟩ := Option.bind_eq_some_iff.1 h
    cases h
    exact (isDouble_scaleDown (isDouble_ofNat hy) hz).withSign negative

end SingleFile.Binary64
