import Mathlib.Data.Option.Basic
import SingleFile.Json.Reader
import SingleFile.Json.Writer
import SingleFile.Proofs.Number.Text

/-!
# Reading what was written

A value that is written without white space is read back, together with whatever follows it, if its
numbers are whole and its arrays and objects do not nest too deep (`Fits`).  The readers are taken
one by one: `readString_escape`, `readNumber_chars`, and then values, items and fields together in
`readValue_chars`.
-/

namespace SingleFile.Json

/-! ### Strings -/

theorem hexValue4_hexDigit : ∀ n < 32,
    hexValue4 '0' '0' (hexDigit (n / 16)) (hexDigit (n % 16)) = some n := by decide

/-- An escaped character is read as the character. -/
theorem readString_escapeChar (c : Char) (rest : List Char) :
    readString (escapeChar c ++ rest) = (readString rest).map fun (cs, r) => (c :: cs, r) := by
  unfold escapeChar
  split
  · next h => subst h; simp [readString, escaped]
  split
  · next h => subst h; simp [readString, escaped]
  split
  · next h => subst h; simp [readString, escaped]
  split
  · next h => subst h; simp [readString, escaped]
  split
  · next h => subst h; simp [readString, escaped]
  split
  · next h =>
    obtain rfl : Char.ofNat 8 = c := by rw [← h, Char.ofNat_toNat]
    simp [readString, escaped]
  split
  · next h =>
    obtain rfl : Char.ofNat 12 = c := by rw [← h, Char.ofNat_toNat]
    simp [readString, escaped]
  split
  · next h =>
    have hn := hexValue4_hexDigit c.toNat h
    have hlow : ¬ (0xD800 ≤ c.toNat) := by omega
    have hlow' : ¬ (0xDC00 ≤ c.toNat) := by omega
    simp [readString, hn, hlow, hlow', Char.ofNat_toNat]
  · next hq hb _ _ _ _ _ hlow =>
    rw [List.singleton_append, readString, if_neg hlow]
    · exact hq
    · intro _ _ _ _ _ h
      exact absurd h hb
    · intro _ _ h
      exact absurd h hb

/-- A string is read up to its closing quote. -/
theorem readString_escape (cs rest : List Char) :
    readString (cs.flatMap escapeChar ++ '"' :: rest) = some (cs, rest) := by
  induction cs with
  | nil => rw [List.flatMap_nil, List.nil_append, readString]
  | cons c cs ih => rw [List.flatMap_cons, List.append_assoc, readString_escapeChar, ih, Option.map_some]

/-! ### Numbers -/

def Follows (rest : List Char) : Prop := ∀ c ∈ rest.head?, c = ',' ∨ c = ']' ∨ c = '}'

theorem le_ofDigitChars (ds : List Char) (n : Nat) : n ≤ Nat.ofDigitChars 10 ds n := by
  induction ds generalizing n with
  | nil => simp
  | cons c ds ih =>
    rw [Nat.ofDigitChars_cons]
    have := ih (10 * n + (c.toNat - '0'.toNat))
    omega

theorem gatherWhole_eq {ds : List Char} {n : Nat} (h : Nat.ofDigitChars 10 ds n ≤ maxNatural) :
    gatherWhole n ds = (Nat.ofDigitChars 10 ds n, 0) := by
  induction ds generalizing n with
  | nil => simp [gatherWhole]
  | cons c ds ih =>
    have hstep : n * 10 + digitValue c = 10 * n + (c.toNat - '0'.toNat) := by
      rw [digitValue, Nat.mul_comm]
      rfl
    rw [Nat.ofDigitChars_cons] at h ⊢
    have hle := le_ofDigitChars ds (10 * n + (c.toNat - '0'.toNat))
    rw [gatherWhole, hstep, if_pos (by omega), ih h]

theorem digitChar_ne_zero : ∀ n < 10, 0 < n → Nat.digitChar n ≠ '0' := by decide

/-- No zero stands in front of other digits. -/
theorem head_decimal {n : Nat} (hn : 0 < n) : (Binary64.decimal n).head? ≠ some '0' := by
  induction n using Nat.strongRecOn with
  | ind n ih =>
    unfold Binary64.decimal at *
    by_cases hlt : n < 10
    · rw [Nat.toDigits_of_lt_base hlt, List.head?_cons]
      exact fun h => digitChar_ne_zero n hlt hn (Option.some.inj h)
    · rw [Nat.toDigits_of_base_le (by omega) (by omega), List.head?_append]
      have hdiv := ih (n / 10) (by omega) (by omega)
      cases hd : Nat.toDigits 10 (n / 10) with
      | nil => exact absurd hd Nat.toDigits_ne_nil
      | cons d ds =>
        rw [hd] at hdiv
        exact hdiv

theorem spanDigits_append {ds rest : List Char} (hds : ∀ c ∈ ds, c.isDigit = true)
    (hrest : Follows rest) : spanDigits (ds ++ rest) = (ds, rest) := by
  have hstop : ∀ c ∈ rest.head?, c.isDigit = false := fun c hc => by
    rcases hrest c hc with rfl | rfl | rfl <;> decide
  rw [spanDigits, takeWhile_append_of_head hds hstop, dropWhile_append_of_head hds hstop]

/-- A whole number of 64 bits is read up to its last digit. -/
theorem readNumber_decimal {n : Nat} (hn : n ≤ maxNatural) {rest : List Char}
    (hrest : Follows rest) :
    readNumber (Binary64.decimal n ++ rest) = some (.natural n, rest) := by
  have hdigit : ∀ c ∈ Binary64.decimal n, c.isDigit = true := fun c hc =>
    Binary64.isDigit_of_mem_decimal hc
  have hvalue := Binary64.ofDigitChars_decimal n
  have hfit : Nat.ofDigitChars 10 (Binary64.decimal n) 0 ≤ maxNatural := by rwa [hvalue]
  have hwhole := gatherWhole_eq hfit
  rw [hvalue] at hwhole
  have hspan := spanDigits_append hdigit hrest
  have hguard : (Binary64.decimal n).head? ≠ some '0' ∨ (Binary64.decimal n).length = 1 := by
    rcases Nat.eq_zero_or_pos n with rfl | hpos
    · exact .inr rfl
    · exact .inl (head_decimal hpos)
  cases hd : Binary64.decimal n with
  | nil => exact absurd hd Nat.toDigits_ne_nil
  | cons c ds =>
    rw [hd] at hspan hwhole hguard hdigit
    have hhead : ¬ c = '0' ∨ ds = [] := by simpa using hguard
    have hminus : c ≠ '-' := by
      rintro rfl
      exact absurd (hdigit '-' List.mem_cons_self) (by decide)
    have hnumber : numberOf false (c :: ds) none none = some (.natural n) := by
      unfold numberOf
      rw [hwhole]
      rfl
    rw [List.cons_append] at hspan ⊢
    cases rest with
    | nil =>
      rw [List.append_nil] at hspan ⊢
      simp [readNumber, hminus, hspan, hnumber, hhead, guard]
    | cons d r =>
      rcases hrest d rfl with rfl | rfl | rfl <;>
        simp [readNumber, hminus, hspan, hnumber, hhead, guard]

/-! ### Values -/

mutual

/-- Numbers are whole and of 64 bits, and arrays and objects nest less than `depth` deep. -/
def Fits : Nat → Json → Prop
  | _, .number (.natural n) => n ≤ maxNatural
  | _, .number _ => False
  | depth, .array items => 2 ≤ depth ∧ FitsItems (depth - 1) items
  | depth, .object fields => 2 ≤ depth ∧ FitsFields (depth - 1) fields
  | _, .null | _, .bool _ | _, .string _ => True

def FitsItems : Nat → List Json → Prop
  | _, [] => True
  | depth, v :: rest => Fits depth v ∧ FitsItems depth rest

def FitsFields : Nat → List (String × Json) → Prop
  | _, [] => True
  | depth, (_, v) :: rest => Fits depth v ∧ FitsFields depth rest

end

theorem skipSpace_cons {c : Char} (h : isSpace c = false) (r : List Char) :
    skipSpace (c :: r) = c :: r := by
  rw [skipSpace, List.dropWhile_cons_of_neg (by simp [h])]

theorem exists_decimal_eq_cons (n : Nat) :
    ∃ c r, Binary64.decimal n = c :: r ∧ c.isDigit = true := by
  cases hd : Binary64.decimal n with
  | nil => exact absurd hd Nat.toDigits_ne_nil
  | cons c r =>
    refine ⟨c, r, rfl, Binary64.isDigit_of_mem_decimal (n := n) ?_⟩
    rw [hd]
    exact List.mem_cons_self

theorem isSpace_of_isDigit {c : Char} (hc : c.isDigit = true) : isSpace c = false := by
  refine Bool.eq_false_iff.2 fun h => ?_
  simp only [isSpace, Bool.or_eq_true, decide_eq_true_eq] at h
  rcases h with ((rfl | rfl) | rfl) | rfl <;> exact absurd hc (by decide)

section Value

variable {depth fuel : Nat} {c : Char} {r : List Char}

theorem readValue_of_isDigit (hc : c.isDigit = true) :
    readValue depth (fuel + 1) (c :: r) =
      (readNumber (c :: r)).map fun (n, r) => (.number n, r) := by
  rw [readValue, skipSpace_cons (isSpace_of_isDigit hc)]
  split
  · next h => cases h; exact absurd hc (by decide)
  · next h => cases h; exact absurd hc (by decide)
  · next h => cases h; exact absurd hc (by decide)
  · next h => cases h; exact absurd hc (by decide)
  · next h => cases h; exact absurd hc (by decide)
  · next h => cases h; exact absurd hc (by decide)
  · rfl

theorem readValue_string : readValue depth (fuel + 1) ('"' :: r) =
    (readString r).map fun (s, r) => (.string (String.ofList s), r) := by
  rw [readValue, skipSpace_cons (by decide)]
  rfl

/-- An array is read from its first item on, if it has one. -/
theorem readValue_array (hdepth : 2 ≤ depth) (hspace : isSpace c = false) :
    readValue depth (fuel + 1) ('[' :: c :: r) =
      if c = ']' then some (.array [], r)
      else (readItems (depth - 1) fuel (c :: r)).map fun (vs, r) => (.array vs, r) := by
  rw [readValue, skipSpace_cons (by decide)]
  simp only [if_neg (Nat.not_le.2 hdepth)]
  rw [skipSpace_cons hspace]
  split
  · next h => rw [if_pos (List.cons.inj h).1, (List.cons.inj h).2]
  · next hclose => rw [if_neg fun h => hclose r (by rw [h])]

/-- An object is read from its first field on, if it has one. -/
theorem readValue_object (hdepth : 2 ≤ depth) (hspace : isSpace c = false) :
    readValue depth (fuel + 1) ('\x7b' :: c :: r) =
      if c = '\x7d' then some (.object [], r)
      else (readFields (depth - 1) fuel (c :: r)).map fun (fs, r) => (.object fs, r) := by
  rw [readValue, skipSpace_cons (by decide)]
  simp only [if_neg (Nat.not_le.2 hdepth)]
  rw [skipSpace_cons hspace]
  split
  · next h => rw [if_pos (List.cons.inj h).1, (List.cons.inj h).2]
  · next hclose => rw [if_neg fun h => hclose r (by rw [h])]

end Value

/-- A number starts with a digit or a minus sign. -/
theorem exists_number_eq_cons (n : Number) :
    ∃ c r, n.chars = c :: r ∧ (c.isDigit = true ∨ c = '-') := by
  cases n with
  | natural n =>
    obtain ⟨c, r, hd, hc⟩ := exists_decimal_eq_cons n
    exact ⟨c, r, hd, .inl hc⟩
  | negative n => exact ⟨'-', _, rfl, .inr rfl⟩
  | real x =>
    obtain ⟨c, r, hb, hc⟩ := Binary64.exists_body_eq_cons x
    rw [Number.chars, Binary64.toList_text, hb]
    split
    · exact ⟨'-', _, rfl, .inr rfl⟩
    · exact ⟨c, r, rfl, .inl hc⟩

/-- A value starts with no space, and with no closing bracket. -/
theorem head_chars (v : Json) : ∃ c r, v.chars = c :: r ∧ isSpace c = false ∧ c ≠ ']' := by
  cases v with
  | null => exact ⟨'n', _, rfl, by decide⟩
  | bool b => cases b <;> exact ⟨_, _, rfl, by decide⟩
  | number n =>
    obtain ⟨c, r, hn, hc⟩ := exists_number_eq_cons n
    refine ⟨c, r, hn, ?_⟩
    rcases hc with hc | rfl
    · exact ⟨isSpace_of_isDigit hc, by rintro rfl; exact absurd hc (by decide)⟩
    · exact ⟨by decide, by decide⟩
  | string s => exact ⟨'"', _, rfl, by decide⟩
  | array items => exact ⟨'[', _, rfl, by decide⟩
  | object fields => exact ⟨'\x7b', _, rfl, by decide⟩

theorem head_itemChars (v : Json) (vs : List Json) :
    ∃ c r, itemChars (v :: vs) = c :: r ∧ isSpace c = false ∧ c ≠ ']' := by
  obtain ⟨c, r, hcr, hc⟩ := head_chars v
  cases vs with
  | nil => exact ⟨c, r, hcr, hc⟩
  | cons w vs => exact ⟨c, _, by rw [itemChars, hcr, List.cons_append], hc⟩

theorem exists_fieldChars_eq_cons (k : String) (v : Json) (fs : List (String × Json)) :
    ∃ r, fieldChars ((k, v) :: fs) = '"' :: r := by
  cases fs with
  | nil => exact ⟨_, rfl⟩
  | cons f fs => exact ⟨_, rfl⟩

mutual

/-- A value is read up to its end. -/
theorem readValue_chars {depth fuel : Nat} {v : Json} {rest : List Char} (hv : Fits depth v)
    (hrest : Follows rest) (hfuel : v.chars.length < fuel) :
    readValue depth fuel (v.chars ++ rest) = some (v, rest) := by
  obtain ⟨fuel, rfl⟩ := Nat.exists_eq_succ_of_ne_zero (Nat.ne_of_gt (Nat.zero_lt_of_lt hfuel))
  cases v with
  | null => rfl
  | bool b => cases b <;> rfl
  | number n =>
    cases n with
    | natural n =>
      obtain ⟨c, r, hd, hc⟩ := exists_decimal_eq_cons n
      have hread := readNumber_decimal hv hrest
      rw [hd] at hread
      rw [chars, Number.chars, hd, List.cons_append, Nat.succ_eq_add_one, readValue_of_isDigit hc,
        ← List.cons_append, hread, Option.map_some]
    | negative n => exact hv.elim
    | real x => exact hv.elim
  | string s =>
    have hquote : (Json.string s).chars ++ rest = '"' :: (s.toList.flatMap escapeChar ++ '"' :: rest) := by
      simp [chars, quote]
    rw [hquote, Nat.succ_eq_add_one, readValue_string, readString_escape, Option.map_some]
    simp only [String.ofList_toList]
  | array items =>
    obtain ⟨hdepth, hitems⟩ := hv
    cases items with
    | nil => exact readValue_array hdepth (by decide)
    | cons v vs =>
      have hlen : (itemChars (v :: vs)).length + 1 < fuel := by
        simp only [chars, List.length_cons, List.length_append, List.length_nil] at hfuel
        omega
      have hread : readItems _ fuel (itemChars (v :: vs) ++ ']' :: rest) = some (v :: vs, rest) :=
        readItems_chars hitems.1 hitems.2 hlen
      obtain ⟨c, r, hcr, hspace, hclose⟩ := head_itemChars v vs
      rw [chars, List.cons_append, List.append_assoc, List.singleton_append]
      rw [hcr, List.cons_append] at hread ⊢
      rw [Nat.succ_eq_add_one, readValue_array hdepth hspace, if_neg hclose, hread, Option.map_some]
  | object fields =>
    obtain ⟨hdepth, hfields⟩ := hv
    cases fields with
    | nil => exact readValue_object hdepth (by decide)
    | cons f fs =>
      obtain ⟨k, v⟩ := f
      have hlen : (fieldChars ((k, v) :: fs)).length + 1 < fuel := by
        simp only [chars, List.length_cons, List.length_append, List.length_nil] at hfuel
        omega
      have hread : readFields _ fuel (fieldChars ((k, v) :: fs) ++ '\x7d' :: rest) =
          some ((k, v) :: fs, rest) := readFields_chars hfields.1 hfields.2 hlen
      obtain ⟨r, hcr⟩ := exists_fieldChars_eq_cons k v fs
      rw [chars, List.cons_append, List.append_assoc, List.singleton_append]
      rw [hcr, List.cons_append] at hread ⊢
      rw [Nat.succ_eq_add_one, readValue_object hdepth (by decide), if_neg (by decide), hread,
        Option.map_some]

theorem readItems_chars {depth fuel : Nat} {v : Json} {vs : List Json} {rest : List Char}
    (hv : Fits depth v) (hvs : FitsItems depth vs) (hfuel : (itemChars (v :: vs)).length + 1 < fuel) :
    readItems depth fuel (itemChars (v :: vs) ++ ']' :: rest) = some (v :: vs, rest) := by
  obtain ⟨fuel, rfl⟩ := Nat.exists_eq_succ_of_ne_zero (Nat.ne_of_gt (Nat.zero_lt_of_lt hfuel))
  cases vs with
  | nil =>
    rw [itemChars] at hfuel ⊢
    have hread : readValue depth fuel (v.chars ++ ']' :: rest) = some (v, ']' :: rest) :=
      readValue_chars hv (by rintro c ⟨⟩; simp) (by omega)
    rw [readItems, hread]
    simp only [skipSpace_cons (c := ']') (by decide)]
  | cons w vs =>
    rw [itemChars] at hfuel ⊢
    simp only [List.length_append, List.length_cons] at hfuel
    have hread : readValue depth fuel (v.chars ++ ',' :: (itemChars (w :: vs) ++ ']' :: rest)) =
        some (v, ',' :: (itemChars (w :: vs) ++ ']' :: rest)) :=
      readValue_chars hv (by rintro c ⟨⟩; simp) (by omega)
    have hnext : readItems depth fuel (itemChars (w :: vs) ++ ']' :: rest) = some (w :: vs, rest) :=
      readItems_chars hvs.1 hvs.2 (by omega)
    rw [List.append_assoc, List.cons_append, readItems, hread]
    simp only [skipSpace_cons (c := ',') (by decide), hnext, Option.map_some]

theorem readFields_chars {depth fuel : Nat} {k : String} {v : Json} {fs : List (String × Json)}
    {rest : List Char} (hv : Fits depth v) (hfs : FitsFields depth fs)
    (hfuel : (fieldChars ((k, v) :: fs)).length + 1 < fuel) :
    readFields depth fuel (fieldChars ((k, v) :: fs) ++ '\x7d' :: rest) =
      some ((k, v) :: fs, rest) := by
  obtain ⟨fuel, rfl⟩ := Nat.exists_eq_succ_of_ne_zero (Nat.ne_of_gt (Nat.zero_lt_of_lt hfuel))
  have hquote (t : List Char) : quote k.toList ++ t = '"' :: (k.toList.flatMap escapeChar ++ '"' :: t) := by
    simp [quote]
  cases fs with
  | nil =>
    rw [fieldChars] at hfuel ⊢
    simp only [List.length_append, List.length_cons] at hfuel
    have hread : readValue depth fuel (v.chars ++ '\x7d' :: rest) = some (v, '\x7d' :: rest) :=
      readValue_chars hv (by rintro c ⟨⟩; simp) (by omega)
    rw [List.append_assoc, List.cons_append, hquote, readFields,
      skipSpace_cons (c := '"') (by decide)]
    simp only [readString_escape, skipSpace_cons (c := ':') (by decide), hread,
      skipSpace_cons (c := '\x7d') (by decide), String.ofList_toList]
  | cons f fs =>
    obtain ⟨k', w⟩ := f
    rw [fieldChars] at hfuel ⊢
    simp only [List.length_append, List.length_cons] at hfuel
    have hread : readValue depth fuel (v.chars ++ ',' :: (fieldChars ((k', w) :: fs) ++ '\x7d' :: rest)) =
        some (v, ',' :: (fieldChars ((k', w) :: fs) ++ '\x7d' :: rest)) :=
      readValue_chars hv (by rintro c ⟨⟩; simp) (by omega)
    have hnext : readFields depth fuel (fieldChars ((k', w) :: fs) ++ '\x7d' :: rest) =
        some ((k', w) :: fs, rest) := readFields_chars hfs.1 hfs.2 (by omega)
    rw [List.append_assoc, List.cons_append, List.append_assoc, List.cons_append, hquote, readFields,
      skipSpace_cons (c := '"') (by decide)]
    simp only [readString_escape, skipSpace_cons (c := ':') (by decide), hread,
      skipSpace_cons (c := ',') (by decide), hnext, String.ofList_toList, Option.map_some]

end

/-- **Reading undoes writing**, for values that fit the reader. -/
theorem parse_compact {v : Json} (hv : Fits depthLimit v) : parse v.compact = some v := by
  have hread : readValue depthLimit (v.chars.length + 1) (v.chars ++ []) = some (v, []) :=
    readValue_chars hv (by rintro c ⟨⟩) (Nat.lt_succ_self _)
  rw [List.append_nil] at hread
  rw [parse, compact, String.toList_ofList, parseChars, hread]
  rfl

end SingleFile.Json
