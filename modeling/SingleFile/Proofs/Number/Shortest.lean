import Mathlib.Data.Nat.Cast.Order.Field
import SingleFile.Proofs.Number.Rounding

/-!
# The fewest digits name one double

The numbers that round to a double make up an interval (`RoundsTo`), and the intervals of two doubles
do not meet (`RoundsTo.unique`): the only border that they can share belongs to the double with the
even significand.  `digits` looks for a number in the interval of a double, on grids that get finer
and finer.  A grid of at most a quarter of a unit has such a number (`exists_nearestOnGrid`), and the
search comes to one (`last_grid_fine`), so that what it finds is always in the interval
(`roundsTo_digits`).
-/

namespace SingleFile.Binary64

/-! ### The numbers that round to a double -/

/-- The lower end of the numbers that round to `m * 2 ^ e`, in quarters of `2 ^ e`. -/
def low (m : Nat) (e : Int) : Nat := if m = 2 ^ 52 ∧ minExponent < e then 4 * m - 1 else 4 * m - 2

/-- Whether a number rounds to `m * 2 ^ e`, ties to even. -/
def RoundsTo (m : Nat) (e : Int) (q : ℚ) : Prop :=
  if m % 2 = 0 then low m e * 2 ^ e ≤ 4 * q ∧ 4 * q ≤ (4 * m + 2 : Nat) * 2 ^ e
  else low m e * 2 ^ e < 4 * q ∧ 4 * q < (4 * m + 2 : Nat) * 2 ^ e

/-- A power is a quotient of powers with natural exponents, one of which is zero. -/
theorem zpow_mul_pow_neg {b : ℚ} (hb : b ≠ 0) (e : Int) :
    b ^ e * b ^ (max (-e) 0).toNat = b ^ (max e 0).toNat := by
  rw [← zpow_natCast, ← zpow_natCast, ← zpow_add₀ hb]
  congr 1
  omega

theorem reads_iff {m d : Nat} {e k : Int} :
    reads m e d k = true ↔ RoundsTo m e (d * 10 ^ k) := by
  -- `reads` compares natural numbers: all sides carry the powers that are missing from them
  have hscale : (0 : ℚ) < 2 ^ (max (-e) 0).toNat * 10 ^ (max (-k) 0).toNat := by positivity
  have hmiddle : ((4 * d * 2 ^ (max (-e) 0).toNat * 10 ^ (max k 0).toNat : Nat) : ℚ) =
      4 * (d * 10 ^ k) * (2 ^ (max (-e) 0).toNat * 10 ^ (max (-k) 0).toNat) := by
    push_cast
    rw [← zpow_mul_pow_neg (b := 10) (by norm_num) k]
    ring
  have hend (a : Nat) : ((a * 2 ^ (max e 0).toNat * 10 ^ (max (-k) 0).toNat : Nat) : ℚ) =
      a * 2 ^ e * (2 ^ (max (-e) 0).toNat * 10 ^ (max (-k) 0).toNat) := by
    push_cast
    rw [← zpow_mul_pow_neg (b := 2) (by norm_num) e]
    ring
  have hle (a b : Nat) : a ≤ b ↔ (a : ℚ) ≤ b := Nat.cast_le.symm
  have hlt (a b : Nat) : a < b ↔ (a : ℚ) < b := Nat.cast_lt.symm
  unfold reads RoundsTo
  by_cases hm : m % 2 = 0
  · simp only [if_pos hm, Bool.and_eq_true, decide_eq_true_eq, hle, hmiddle, hend,
      mul_le_mul_iff_left₀ hscale]
    rfl
  · simp only [if_neg hm, Bool.and_eq_true, decide_eq_true_eq, hlt, hmiddle, hend,
      mul_lt_mul_iff_left₀ hscale]
    rfl

theorem RoundsTo.low_le {m : Nat} {e : Int} {q : ℚ} (h : RoundsTo m e q) :
    low m e * 2 ^ e ≤ 4 * q := by
  unfold RoundsTo at h
  split at h
  · exact h.1
  · exact h.1.le

theorem RoundsTo.le_high {m : Nat} {e : Int} {q : ℚ} (h : RoundsTo m e q) :
    4 * q ≤ (4 * m + 2 : Nat) * 2 ^ e := by
  unfold RoundsTo at h
  split at h
  · exact h.2
  · exact h.2.le

/-- The ends of the interval round to an even significand only. -/
theorem RoundsTo.lt_of_odd {m : Nat} {e : Int} {q : ℚ} (h : RoundsTo m e q) (hm : m % 2 = 1) :
    low m e * 2 ^ e < 4 * q ∧ 4 * q < (4 * m + 2 : Nat) * 2 ^ e := by
  rwa [RoundsTo, if_neg (by omega)] at h

theorem lt_low {m : Nat} (e : Int) : 4 * m - 2 ≤ low m e := by
  unfold low
  split <;> omega

/-! ### No number rounds to two doubles -/

section Unique

variable {x y : Binary64} {q : ℚ}

def Below (x y : Binary64) : Prop :=
  x.exponent < y.exponent ∨ x.exponent = y.exponent ∧ x.significand < y.significand

/-- The intervals of two doubles stand in their order, and an end that they share is not an end of
two even significands. -/
theorem high_le_low (hx : x.IsDouble) (hy : y.IsDouble) (h : Below x y) :
    ∃ a : Nat, 4 * x.significand + 2 ≤ a ∧
      (a * 2 ^ x.exponent : ℚ) ≤ low y.significand y.exponent * 2 ^ y.exponent ∧
      (4 * x.significand + 2 = a → x.significand % 2 = 1 ∨ y.significand % 2 = 1) := by
  have hlt := hx.lt
  rcases h with h | ⟨he, hm⟩
  · -- a unit of the larger double is at least two units of the smaller one
    have hfull : 2 ^ 52 ≤ y.significand := by
      rcases hy.full with hf | hf
      · exact hf
      · have := hx.ge
        omega
    have hlow : 2 ^ 54 - 1 ≤ low y.significand y.exponent := by
      have := lt_low (m := y.significand) y.exponent
      by_cases hm : y.significand = 2 ^ 52
      · have := hx.ge
        rw [low, if_pos ⟨hm, by omega⟩]
        omega
      · omega
    refine ⟨2 * low y.significand y.exponent, by omega, ?_, by omega⟩
    have hunit : (2 : ℚ) ^ (x.exponent + 1) ≤ 2 ^ y.exponent :=
      zpow_le_zpow_right₀ (by norm_num) (by omega)
    calc ((2 * low y.significand y.exponent : Nat) * 2 ^ x.exponent : ℚ)
        = low y.significand y.exponent * 2 ^ (x.exponent + 1) := by
          rw [zpow_add_one₀ (by norm_num)]
          push_cast
          ring
      _ ≤ low y.significand y.exponent * 2 ^ y.exponent :=
          mul_le_mul_of_nonneg_left hunit (Nat.cast_nonneg _)
  · -- of neighbours with one unit, one significand is odd
    refine ⟨low y.significand y.exponent, ?_, by rw [he], ?_⟩
    · have := lt_low (m := y.significand) y.exponent
      omega
    · unfold low
      split <;> omega

theorem not_roundsTo_of_below (hx : x.IsDouble) (hy : y.IsDouble) (h : Below x y)
    (hq : RoundsTo x.significand x.exponent q) : ¬ RoundsTo y.significand y.exponent q := by
  intro hq'
  obtain ⟨a, ha, hle, hodd⟩ := high_le_low hx hy h
  have hpos : (0 : ℚ) < 2 ^ x.exponent := zpow_pos (by norm_num) _
  have hhigh := hq.le_high
  have hlow := hq'.low_le
  rcases Nat.lt_or_eq_of_le ha with hlt | heq
  · have hstep : ((4 * x.significand + 2 : Nat) * 2 ^ x.exponent : ℚ) < a * 2 ^ x.exponent :=
      mul_lt_mul_of_pos_right (Nat.cast_lt.2 hlt) hpos
    linarith
  · rw [← heq] at hle
    rcases hodd heq with hm | hm
    · have := (hq.lt_of_odd hm).2
      linarith
    · have := (hq'.lt_of_odd hm).1
      linarith

/-- **A number rounds to one double at most**, but for the sign. -/
theorem RoundsTo.unique (hx : x.IsDouble) (hy : y.IsDouble)
    (hq : RoundsTo x.significand x.exponent q) (hq' : RoundsTo y.significand y.exponent q) :
    x.significand = y.significand ∧ x.exponent = y.exponent := by
  by_contra hne
  have hcases : Below x y ∨ Below y x := by
    unfold Below
    omega
  rcases hcases with h | h
  · exact not_roundsTo_of_below hx hy h hq hq'
  · exact not_roundsTo_of_below hy hx h hq' hq

end Unique

/-! ### A fine grid has a number that reads back -/

def magnitude (x : Binary64) : ℚ := x.significand * 2 ^ x.exponent

theorem ratio_eq (x : Binary64) : (x.ratio.1 / x.ratio.2 : ℚ) = x.magnitude := by
  unfold ratio magnitude
  split
  · next h =>
    obtain ⟨n, hn⟩ := Int.eq_ofNat_of_zero_le h
    simp [hn]
  · next h =>
    obtain ⟨n, hn⟩ := Int.eq_ofNat_of_zero_le (a := -x.exponent) (by omega)
    have hexp : x.exponent = -n := by omega
    simp [hexp, div_eq_mul_inv]

/-- The lengths of the parts of a number differ by the place of its first digit. -/
theorem bitLength_ratio {x : Binary64} (hx : x.significand ≠ 0) :
    (bitLength x.ratio.1 : Int) - bitLength x.ratio.2 = bitLength x.significand + x.exponent - 1 := by
  have hone : bitLength 1 = 1 := rfl
  unfold ratio
  split
  · next h =>
    rw [bitLength_mul_two_pow hx, hone]
    omega
  · have hpow : bitLength (2 ^ (-x.exponent).toNat) = 1 + (-x.exponent).toNat := by
      rw [← Nat.one_mul (2 ^ _), bitLength_mul_two_pow Nat.one_ne_zero, hone]
    show (bitLength x.significand : Int) - bitLength (2 ^ (-x.exponent).toNat) = _
    rw [hpow]
    omega

theorem reads_of_nearestOnGrid {num den m d : Nat} {e k : Int}
    (h : nearestOnGrid num den m e k = some d) : reads m e d k = true := by
  unfold nearestOnGrid at h
  dsimp only at h
  split at h
  · next hl hr =>
    cases h
    split
    · exact hl
    split
    · exact hr
    split
    · exact hl
    · exact hr
  · next hl _ =>
    cases h
    exact hl
  · next _ hr =>
    cases h
    exact hr
  · exact nomatch h

theorem ne_zero_of_reads {m d : Nat} {e k : Int} (hm : m ≠ 0) (h : reads m e d k = true) : d ≠ 0 := by
  rintro rfl
  have hlow := (reads_iff.1 h).low_le
  have hpos : (0 : ℚ) < low m e * 2 ^ e := by
    have := lt_low (m := m) e
    have hnat : 0 < low m e := by omega
    exact mul_pos (Nat.cast_pos.2 hnat) (zpow_pos (by norm_num) e)
  rw [Nat.cast_zero, zero_mul, mul_zero] at hlow
  exact absurd hlow (not_le.2 hpos)

/-- What is found on the first grid that has a number reads back. -/
theorem reads_searchGrids {num den m j fuel : Nat} {e k : Int} (hm : m ≠ 0) (hj : j < fuel)
    (h : (nearestOnGrid num den m e (k - j)).isSome) :
    reads m e (searchGrids num den m e fuel k).1 (searchGrids num den m e fuel k).2 = true := by
  induction fuel generalizing j k with
  | zero => exact absurd hj (Nat.not_lt_zero j)
  | succ fuel ih =>
    rw [searchGrids]
    cases hn : nearestOnGrid num den m e k with
    | some d =>
      have hd := reads_of_nearestOnGrid hn
      simp only [if_neg (ne_zero_of_reads hm hd)]
      exact hd
    | none =>
      cases j with
      | zero => simp [hn] at h
      | succ j =>
        refine ih (Nat.lt_of_succ_lt_succ hj) ?_
        have hk : k - 1 - j = k - (j + 1 : Nat) := by omega
        rwa [hk]

/-- What is closely below a number rounds to it. -/
theorem roundsTo_of_lt {x : Binary64} (hx : x.significand ≠ 0) {q : ℚ} (hle : q ≤ x.magnitude)
    (hlt : 4 * (x.magnitude - q) < 2 ^ x.exponent) : RoundsTo x.significand x.exponent q := by
  have hunit : (0 : ℚ) < 2 ^ x.exponent := zpow_pos (by norm_num) _
  have hlow : (low x.significand x.exponent : ℚ) + 1 ≤ 4 * x.significand := by
    have hnat : low x.significand x.exponent + 1 ≤ 4 * x.significand := by
      unfold low
      split <;> omega
    exact_mod_cast hnat
  unfold magnitude at hle hlt
  have hstep := mul_le_mul_of_nonneg_right hlow hunit.le
  have hdown : (low x.significand x.exponent * 2 ^ x.exponent : ℚ) < 4 * q := by linarith
  have hup : (4 * q : ℚ) < (4 * x.significand + 2 : Nat) * 2 ^ x.exponent := by
    push_cast
    linarith
  unfold RoundsTo
  split
  · exact ⟨hdown.le, hup.le⟩
  · exact ⟨hdown, hup⟩

/-- The place of a number on a grid. -/
theorem grid_mul_pow (x : Binary64) (k : Int) :
    ((x.ratio.1 * 10 ^ (max (-k) 0).toNat : Nat) / (x.ratio.2 * 10 ^ (max k 0).toNat : Nat) : ℚ) *
      10 ^ k = x.magnitude := by
  have hne : (x.ratio.2 : ℚ) ≠ 0 := Nat.cast_ne_zero.2 (ratio_ne_zero x)
  have hpow := zpow_mul_pow_neg (b := 10) (by norm_num) k
  have hten : (10 : ℚ) ^ (max k 0).toNat ≠ 0 := by positivity
  rw [← ratio_eq, div_mul_eq_mul_div, div_eq_div_iff (by push_cast; positivity) hne]
  push_cast
  rw [← hpow]
  ring

/-- On a grid of at most a quarter of a unit the next smaller number reads back. -/
theorem exists_nearestOnGrid {x : Binary64} (hx : x.significand ≠ 0) {k : Int}
    (hk : (4 * 10 ^ k : ℚ) ≤ 2 ^ x.exponent) :
    (nearestOnGrid x.ratio.1 x.ratio.2 x.significand x.exponent k).isSome := by
  have hten : (0 : ℚ) < 10 ^ k := zpow_pos (by norm_num) k
  have hgrid := grid_mul_pow x k
  unfold nearestOnGrid
  dsimp only
  generalize x.ratio.1 * 10 ^ (max (-k) 0).toNat = a at *
  have hb : x.ratio.2 * 10 ^ (max k 0).toNat ≠ 0 :=
    Nat.mul_ne_zero (ratio_ne_zero x) (by positivity)
  generalize x.ratio.2 * 10 ^ (max k 0).toNat = b at *
  have hle : ((a / b : Nat) : ℚ) ≤ a / b := Nat.cast_div_le
  have hlt : (a / b : ℚ) < (a / b : Nat) + 1 := by
    rw [div_lt_iff₀ (Nat.cast_pos.2 (Nat.pos_of_ne_zero hb)), add_mul, one_mul]
    exact_mod_cast Nat.lt_div_mul_add (Nat.pos_of_ne_zero hb)
  have hbelow : (a / b : Nat) * 10 ^ k ≤ x.magnitude := by
    rw [← hgrid]
    exact mul_le_mul_of_nonneg_right hle hten.le
  have habove : x.magnitude < ((a / b : Nat) + 1) * 10 ^ k := by
    rw [← hgrid]
    exact mul_lt_mul_of_pos_right hlt hten
  have hreads : reads x.significand x.exponent (a / b) k = true :=
    reads_iff.2 (roundsTo_of_lt hx hbelow (by linarith))
  rw [hreads]
  cases reads x.significand x.exponent (a / b + 1) k <;> rfl

/-! ### The search comes to a fine grid -/

theorem ten_pow_le_two_pow {n p : Nat} (h : 10 * n ≤ 3 * p) : 10 ^ n ≤ 2 ^ p := by
  refine (Nat.pow_le_pow_iff_left (n := 3) (by omega)).1 ?_
  calc (10 ^ n) ^ 3 = (10 ^ 3) ^ n := Nat.pow_right_comm 10 n 3
    _ ≤ (2 ^ 10) ^ n := Nat.pow_le_pow_left (by norm_num) n
    _ = 2 ^ (10 * n) := (Nat.pow_mul 2 10 n).symm
    _ ≤ 2 ^ (p * 3) := Nat.pow_le_pow_right (by omega) (by omega)
    _ = (2 ^ p) ^ 3 := Nat.pow_mul 2 p 3

theorem two_pow_le_ten_pow {n p : Nat} (h : 7 * p ≤ 23 * n) : 2 ^ p ≤ 10 ^ n := by
  refine (Nat.pow_le_pow_iff_left (n := 7) (by omega)).1 ?_
  calc (2 ^ p) ^ 7 = 2 ^ (p * 7) := (Nat.pow_mul 2 p 7).symm
    _ ≤ 2 ^ (23 * n) := Nat.pow_le_pow_right (by omega) (by omega)
    _ = (2 ^ 23) ^ n := Nat.pow_mul 2 23 n
    _ ≤ (10 ^ 7) ^ n := Nat.pow_le_pow_left (by norm_num) n
    _ = (10 ^ n) ^ 7 := Nat.pow_right_comm 10 7 n

/-- Powers of ten against powers of two: `10 ^ 3` is less than `2 ^ 10`, and `2 ^ 23` less than
`10 ^ 7`. -/
theorem ten_zpow_le_two_zpow {k e : Int} (hpos : 0 ≤ k → 10 * k ≤ 3 * e)
    (hneg : k < 0 → 23 * k ≤ 7 * e) : (10 : ℚ) ^ k ≤ 2 ^ e := by
  by_cases hk : 0 ≤ k
  · obtain ⟨n, rfl⟩ := Int.eq_ofNat_of_zero_le hk
    obtain ⟨p, rfl⟩ := Int.eq_ofNat_of_zero_le (a := e) (by have := hpos hk; omega)
    rw [zpow_natCast, zpow_natCast]
    exact_mod_cast ten_pow_le_two_pow (by have := hpos hk; omega)
  by_cases he : 0 ≤ e
  · calc (10 : ℚ) ^ k ≤ 1 := zpow_le_one_of_nonpos₀ (by norm_num) (by omega)
      _ ≤ 2 ^ e := one_le_zpow₀ (by norm_num) he
  · obtain ⟨n, hn⟩ := Int.eq_ofNat_of_zero_le (a := -k) (by omega)
    obtain ⟨p, hp⟩ := Int.eq_ofNat_of_zero_le (a := -e) (by omega)
    have hk' : k = -n := by omega
    have he' : e = -p := by omega
    have hle : (2 : ℚ) ^ p ≤ 10 ^ n := by
      exact_mod_cast two_pow_le_ten_pow (by have := hneg (by omega); omega)
    rw [hk', he', zpow_neg, zpow_neg, zpow_natCast, zpow_natCast]
    exact inv_anti₀ (by positivity) hle

/-- The last grid that is searched is fine enough for any double. -/
theorem last_grid_fine {x : Binary64} (hx : x.IsDouble) (h0 : x.significand ≠ 0) {k : Int}
    (hk : k = ((bitLength x.ratio.1 : Int) - bitLength x.ratio.2) * 30103 / 100000 + 2 - 24) :
    (4 * 10 ^ k : ℚ) ≤ 2 ^ x.exponent := by
  have hlen := bitLength_le_of_lt hx.lt
  have hmin : minExponent = -1074 := rfl
  have hge := hx.ge
  have hle := hx.le
  rw [bitLength_ratio h0] at hk
  have hpow : (10 : ℚ) ^ k ≤ 2 ^ (x.exponent - 2) :=
    ten_zpow_le_two_zpow (fun _ => by omega) (fun _ => by omega)
  rw [zpow_sub₀ (by norm_num)] at hpow
  norm_num at hpow
  linarith

theorem dropZeros_value (fuel d : Nat) (k : Int) :
    ((dropZeros fuel d k).1 * 10 ^ (dropZeros fuel d k).2 : ℚ) = d * 10 ^ k := by
  induction fuel generalizing d k with
  | zero => rfl
  | succ fuel ih =>
    rw [dropZeros]
    split
    · next hd =>
      rw [ih, zpow_add_one₀ (by norm_num)]
      have hten : d = 10 * (d / 10) := by omega
      have hcast : (d : ℚ) = 10 * (d / 10 : Nat) := by exact_mod_cast hten
      rw [hcast]
      ring
    · rfl

/-- **The digits of a double round to it.** -/
theorem roundsTo_digits {x : Binary64} (hx : x.IsDouble) (h0 : x.significand ≠ 0) :
    RoundsTo x.significand x.exponent (x.digits.1 * 10 ^ x.digits.2) := by
  unfold digits
  dsimp only
  rw [dropZeros_value]
  exact reads_iff.1 (reads_searchGrids (j := 24) h0 (by omega)
    (exists_nearestOnGrid h0 (last_grid_fine hx h0 rfl)))

end SingleFile.Binary64
