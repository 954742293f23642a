import SingleFile.SourceMap.Vlq

/-!
# Numbers in segments

`decode_encode` says that the numbers of a segment are read back, and `mem_encode` that no
separator stands in one.
-/

namespace SingleFile.Vlq

/-- A number that takes no more than 62 bits besides its sign. -/
def Small (n : Int) : Prop := n.natAbs < 2 ^ 62

theorem digitValue?_digit : ∀ n < 64, digitValue? (digit n) = some n := by
  unfold digit
  rw [show alphabet = _ from String.toList_ofList]
  decide +kernel

theorem utf8Size_digit : ∀ n < 64, (digit n).utf8Size = 1 := by
  unfold digit
  rw [show alphabet = _ from String.toList_ofList]
  decide +kernel

theorem digit_ne_separator : ∀ n < 64, digit n ≠ ',' ∧ digit n ≠ ';' := by
  unfold digit
  rw [show alphabet = _ from String.toList_ofList]
  decide +kernel

theorem digits_append (a b : List Char) : digits (a ++ b) = digits a ++ digits b :=
  List.flatMap_append

theorem digits_cons_digit {n : Nat} (h : n < 64) (cs : List Char) :
    digits (digit n :: cs) = some n :: digits cs := by
  rw [digits, List.flatMap_cons, utf8Size_digit n h, digitValue?_digit n h]
  rfl

/-- The digits that are left of a number complete it. -/
theorem decodeFrom_encodeBits {fuel n bits shift : Nat} (rest : List (Option Nat)) (hfuel : n ≤ fuel)
    (hshift : shift < 64) (hn : n < 2 ^ (64 - shift)) :
    decodeFrom bits shift (digits (encodeBits fuel n) ++ rest) =
      (decodeFrom 0 0 rest).map (signed (bits + n * 2 ^ shift) :: ·) := by
  induction fuel generalizing n bits shift with
  | zero =>
    obtain rfl : n = 0 := by omega
    rw [encodeBits, Nat.zero_mod, digits_cons_digit (by omega)]
    simp [digits, decodeFrom, Nat.not_le.2 hshift]
  | succ fuel ih =>
    rw [encodeBits]
    split
    · next hlt =>
      rw [digits_cons_digit (by omega)]
      simp [digits, decodeFrom, Nat.not_le.2 hshift, Nat.not_le.2 hlt, Nat.mod_eq_of_lt hlt]
    · next hge =>
      have hpow : (2 : Nat) ^ 5 < 2 ^ (64 - shift) := by
        have : (2 : Nat) ^ 5 = 32 := rfl
        omega
      have hlt : 5 < 64 - shift := (Nat.pow_lt_pow_iff_right (by omega)).1 hpow
      have hsplit : 2 ^ (64 - shift) = 2 ^ (64 - (shift + 5)) * 32 := by
        rw [show (32 : Nat) = 2 ^ 5 from rfl, ← Nat.pow_add]
        congr 1
        omega
      have hdiv : n / 32 < 2 ^ (64 - (shift + 5)) := by
        rw [Nat.div_lt_iff_lt_mul (by omega), ← hsplit]
        exact hn
      have hvalue : bits + n % 32 * 2 ^ shift + n / 32 * 2 ^ (shift + 5) = bits + n * 2 ^ shift := by
        have hmod : n % 32 + n / 32 * 32 = n := by omega
        have hshifted : n / 32 * 2 ^ (shift + 5) = n / 32 * 32 * 2 ^ shift := by
          rw [Nat.add_comm shift 5, Nat.pow_add, ← Nat.mul_assoc, show (2 : Nat) ^ 5 = 32 from rfl]
        rw [hshifted, Nat.add_assoc, ← Nat.add_mul, hmod]
      have hmod : (n % 32 + 32) % 32 = n % 32 := by omega
      rw [digits_cons_digit (by omega), List.cons_append, decodeFrom, Option.getD_some,
        if_neg (Nat.not_le.2 hshift), if_pos (by omega), ih (by omega) (by omega) hdiv, hmod, hvalue]

theorem decodeFrom_encode {n : Int} (hn : Small n) (rest : List (Option Nat)) :
    decodeFrom 0 0 (digits (encode n) ++ rest) = (decodeFrom 0 0 rest).map (n :: ·) := by
  have hsize : n.natAbs < 2 ^ 62 := hn
  unfold encode
  simp only []
  split
  · next hneg =>
    rw [decodeFrom_encodeBits rest (Nat.le_refl _) (by omega) (by omega)]
    have hs : signed (0 + (2 * n.natAbs + 1) * 2 ^ 0) = n := by
      unfold signed
      rw [Int.bmod_eq_of_le (by omega) (by omega)]
      simp only []
      split <;> omega
    rw [hs]
  · next hpos =>
    rw [decodeFrom_encodeBits rest (Nat.le_refl _) (by omega) (by omega)]
    have hs : signed (0 + 2 * n.natAbs * 2 ^ 0) = n := by
      unfold signed
      rw [Int.bmod_eq_of_le (by omega) (by omega)]
      simp only []
      split <;> omega
    rw [hs]

/-- The numbers of a segment are read back. -/
theorem decode_encode {ns : List Int} (hne : ns ≠ []) (hns : ∀ n ∈ ns, Small n) :
    decode (ns.flatMap encode) = .ok ns := by
  have hrun : decodeFrom 0 0 (digits (ns.flatMap encode)) = .ok ns := by
    clear hne
    induction ns with
    | nil => rfl
    | cons n ns ih =>
      rw [List.flatMap_cons, digits_append, decodeFrom_encode (hns n List.mem_cons_self),
        ih fun m hm => hns m (List.mem_cons_of_mem n hm)]
      rfl
  unfold decode
  rw [hrun]
  cases ns with
  | nil => exact absurd rfl hne
  | cons n ns => rfl

/-! ### Separators -/

theorem mem_encodeBits {fuel n : Nat} {c : Char} (h : c ∈ encodeBits fuel n) : c ≠ ',' ∧ c ≠ ';' := by
  induction fuel generalizing n with
  | zero =>
    rw [encodeBits, List.mem_singleton] at h
    rw [h]
    exact digit_ne_separator _ (by omega)
  | succ fuel ih =>
    rw [encodeBits] at h
    split at h
    · rw [List.mem_singleton] at h
      rw [h]
      exact digit_ne_separator _ (by omega)
    · rcases List.mem_cons.1 h with rfl | h
      · exact digit_ne_separator _ (by omega)
      · exact ih h

/-- No separator stands in a number. -/
theorem mem_encode {n : Int} {c : Char} (h : c ∈ encode n) : c ≠ ',' ∧ c ≠ ';' :=
  mem_encodeBits h

theorem encode_ne_nil (n : Int) : encode n ≠ [] := by
  unfold encode
  simp only []
  generalize (if n < 0 then 2 * n.natAbs + 1 else 2 * n.natAbs) = bits
  cases bits with
  | zero => simp [encodeBits]
  | succ k =>
    rw [encodeBits]
    split <;> simp

end SingleFile.Vlq
