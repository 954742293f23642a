import SingleFile.Proofs.Json.RoundTrip
import SingleFile.Proofs.Json.Sound

/-!
# A text is the text of one value

`parse_compact` reads a written value back if the reader can take it: numbers that are not whole and
values that nest deep are left out there.  Here nothing is read.  Two values with one text are taken
apart together: the first character tells their kinds apart (`opening_eq`), strings end at the first
quote that is not escaped, numbers at the first character that is in no number (`Follows`), and items
and fields are told apart one by one (`chars_append_inj`).  All that is asked is that the doubles are
stored as doubles are (`Sound`).

A text also has no control characters (`le_of_mem_chars`), so that it can stand between zeros.
-/

namespace SingleFile.Json

/-! ### Numbers -/

open Binary64 (IsNumeral)

theorem isNumeral_of_mem_number {n : Number} {c : Char} (hc : c ∈ n.chars) : IsNumeral c := by
  cases n with
  | natural n => exact .inl (Binary64.isDigit_of_mem_decimal hc)
  | negative n =>
    rcases List.mem_cons.1 hc with rfl | hc
    · simp [IsNumeral]
    · exact .inl (Binary64.isDigit_of_mem_decimal hc)
  | real x =>
    rw [Number.chars, Binary64.toList_text] at hc
    rcases List.mem_append.1 hc with hc | hc
    · split at hc
      · rw [List.mem_singleton.1 hc]
        simp [IsNumeral]
      · exact absurd hc List.not_mem_nil
    · exact Binary64.isNumeral_of_mem_body hc

theorem minus_not_mem_decimal (n : Nat) : '-' ∉ Binary64.decimal n := fun h =>
  absurd (Binary64.isDigit_of_mem_decimal h) (by decide)

/-- A number that is not whole is not written as a whole one. -/
theorem exists_mem_real (x : Binary64) : ∃ c ∈ (Number.real x).chars, c = '.' ∨ c = 'e' := by
  obtain ⟨c, hc, h⟩ := Binary64.exists_mem_body x
  refine ⟨c, ?_, h⟩
  rw [Number.chars, Binary64.toList_text]
  exact List.mem_append_right _ hc

theorem not_mem_whole {c : Char} (hc : c = '.' ∨ c = 'e') (n : Nat) :
    c ∉ (Number.natural n).chars ∧ c ∉ (Number.negative n).chars := by
  have hdigit : c ∉ Binary64.decimal n := fun h => by
    have hd := Binary64.isDigit_of_mem_decimal h
    rcases hc with rfl | rfl <;> exact absurd hd (by decide)
  refine ⟨hdigit, fun h => ?_⟩
  rcases List.mem_cons.1 h with rfl | h
  · exact absurd hc (by decide)
  · exact hdigit h

theorem real_chars_ne (x : Binary64) (n : Nat) :
    (Number.real x).chars ≠ (Number.natural n).chars ∧
      (Number.real x).chars ≠ (Number.negative n).chars := by
  obtain ⟨c, hc, h⟩ := exists_mem_real x
  exact ⟨fun he => (not_mem_whole h n).1 (he ▸ hc), fun he => (not_mem_whole h n).2 (he ▸ hc)⟩

theorem natural_chars_ne (n m : Nat) :
    (Number.natural n).chars ≠ (Number.negative m).chars := fun h =>
  minus_not_mem_decimal n (show '-' ∈ (Number.natural n).chars by
    rw [h]
    exact List.mem_cons_self)

/-- **Two numbers with one text are one number.** -/
theorem Number.chars_injective {n m : Number} (hn : n.Sound) (hm : m.Sound)
    (h : n.chars = m.chars) : n = m := by
  cases n with
  | natural n =>
    cases m with
    | natural m => rw [Binary64.decimal_injective h]
    | negative m => exact absurd h (natural_chars_ne n m)
    | real y => exact absurd h.symm (real_chars_ne y n).1
  | negative n =>
    cases m with
    | natural m => exact absurd h.symm (natural_chars_ne m n)
    | negative m => rw [Binary64.decimal_injective (List.cons.inj h).2]
    | real y => exact absurd h.symm (real_chars_ne y n).2
  | real x =>
    cases m with
    | natural m => exact absurd h (real_chars_ne x m).1
    | negative m => exact absurd h (real_chars_ne x m).2
    | real y => rw [Binary64.text_injective hn hm (String.toList_injective h)]

/-! ### Kinds of values -/

/-- The character that a value starts with if it is no number. -/
def opening : Json → Option Char
  | .null => some 'n'
  | .bool true => some 't'
  | .bool false => some 'f'
  | .number _ => none
  | .string _ => some '"'
  | .array _ => some '['
  | .object _ => some '\x7b'

theorem filter_head? (v : Json) (r : List Char) :
    (v.chars ++ r).head?.filter (fun c => !(c.isDigit || c == '-')) = v.opening := by
  cases v with
  | null => rfl
  | bool b => cases b <;> rfl
  | number n =>
    obtain ⟨c, t, hn, hc⟩ := exists_number_eq_cons n
    rw [chars, hn]
    rcases hc with hc | rfl
    · simp [opening, hc]
    · rfl
  | string s => rfl
  | array items => rfl
  | object fields => rfl

/-- The first character of a text tells the kind of its value. -/
theorem opening_eq {v w : Json} {r s : List Char} (h : v.chars ++ r = w.chars ++ s) :
    v.opening = w.opening := by
  rw [← filter_head? v r, h, filter_head?]

/-! ### Values -/

def itemRest : List Json → List Char
  | [] => []
  | w :: ws => ',' :: itemChars (w :: ws)

theorem itemChars_cons (v : Json) (vs : List Json) :
    itemChars (v :: vs) = v.chars ++ itemRest vs := by
  cases vs with
  | nil => rw [itemChars, itemRest, List.append_nil]
  | cons w ws => rw [itemChars, itemRest]

def fieldRest : List (String × Json) → List Char
  | [] => []
  | f :: fs => ',' :: fieldChars (f :: fs)

theorem fieldChars_cons (k : String) (v : Json) (fs : List (String × Json)) :
    fieldChars ((k, v) :: fs) = quote k.toList ++ ':' :: (v.chars ++ fieldRest fs) := by
  cases fs with
  | nil => rw [fieldChars, fieldRest, List.append_nil]
  | cons f fs => rw [fieldChars, fieldRest]

theorem follows_itemRest (vs : List Json) (r : List Char) : Follows (itemRest vs ++ ']' :: r) := by
  cases vs <;> rintro c ⟨⟩ <;> simp

theorem follows_fieldRest (fs : List (String × Json)) (r : List Char) :
    Follows (fieldRest fs ++ '\x7d' :: r) := by
  cases fs <;> rintro c ⟨⟩ <;> simp

theorem quote_append_inj {a b r s : List Char} (h : quote a ++ r = quote b ++ s) :
    a = b ∧ r = s := by
  have hread (cs t : List Char) : (quote cs ++ t).tail = cs.flatMap escapeChar ++ '"' :: t := by
    simp [quote]
  have htail := congrArg List.tail h
  rw [hread, hread] at htail
  have hsome := congrArg readString htail
  rw [readString_escape, readString_escape] at hsome
  exact Prod.mk.inj (Option.some.inj hsome)

/-- A number ends at the first character that is in no number. -/
theorem number_append_inj {n m : Number} (hn : n.Sound) (hm : m.Sound) {r s : List Char}
    (hr : Follows r) (hs : Follows s) (h : n.chars ++ r = m.chars ++ s) : n = m ∧ r = s := by
  have hin (n : Number) : ∀ c ∈ n.chars, decide (IsNumeral c) = true := fun c hc =>
    decide_eq_true (isNumeral_of_mem_number hc)
  have hout {t : List Char} (ht : Follows t) : ∀ c ∈ t.head?, decide (IsNumeral c) = false := by
    intro c hc
    rcases ht c hc with rfl | rfl | rfl <;> decide
  obtain ⟨hchars, hrest⟩ := append_inj_of_head (hin n) (hout hr) (hin m) (hout hs) h
  exact ⟨Number.chars_injective hn hm hchars, hrest⟩

mutual

/-- **Values with one text are one value**, whatever follows them. -/
theorem chars_append_inj {v w : Json} (hv : Sound v) (hw : Sound w) {r s : List Char}
    (hr : Follows r) (hs : Follows s) (h : v.chars ++ r = w.chars ++ s) : v = w ∧ r = s := by
  have hkind := opening_eq h
  cases v with
  | null =>
    cases w with
    | null => exact ⟨rfl, List.append_cancel_left h⟩
    | bool b => cases b <;> simp [opening] at hkind
    | _ => simp [opening] at hkind
  | bool b =>
    cases w with
    | bool c =>
      obtain rfl : b = c := by
        cases b <;> cases c <;> simp [opening] at hkind <;> rfl
      exact ⟨rfl, List.append_cancel_left h⟩
    | _ => cases b <;> simp [opening] at hkind
  | number n =>
    cases w with
    | number m =>
      obtain ⟨rfl, hrest⟩ := number_append_inj hv hw hr hs h
      exact ⟨rfl, hrest⟩
    | bool b => cases b <;> simp [opening] at hkind
    | _ => simp [opening] at hkind
  | string a =>
    cases w with
    | string b =>
      obtain ⟨hab, hrest⟩ := quote_append_inj h
      rw [String.toList_injective hab]
      exact ⟨rfl, hrest⟩
    | bool b => cases b <;> simp [opening] at hkind
    | _ => simp [opening] at hkind
  | array vs =>
    cases w with
    | array ws =>
      have hitems : itemChars vs ++ ']' :: r = itemChars ws ++ ']' :: s := by
        simpa [chars] using h
      obtain ⟨rfl, hrest⟩ := itemChars_append_inj hv hw hitems
      exact ⟨rfl, hrest⟩
    | bool b => cases b <;> simp [opening] at hkind
    | _ => simp [opening] at hkind
  | object fs =>
    cases w with
    | object gs =>
      have hfields : fieldChars fs ++ '}' :: r = fieldChars gs ++ '}' :: s := by
        simpa [chars] using h
      obtain ⟨rfl, hrest⟩ := fieldChars_append_inj hv hw hfields
      exact ⟨rfl, hrest⟩
    | bool b => cases b <;> simp [opening] at hkind
    | _ => simp [opening] at hkind

theorem itemChars_append_inj {vs ws : List Json} (hv : SoundItems vs) (hw : SoundItems ws)
    {r s : List Char} (h : itemChars vs ++ ']' :: r = itemChars ws ++ ']' :: s) :
    vs = ws ∧ r = s := by
  have hclose (w : Json) (ws : List Json) (t u : List Char) :
      itemChars (w :: ws) ++ t ≠ ']' :: u := by
    obtain ⟨c, x, hc, _, hne⟩ := head_itemChars w ws
    rw [hc]
    exact fun h => hne (List.cons.inj h).1
  cases vs with
  | nil =>
    cases ws with
    | nil => exact ⟨rfl, (List.cons.inj h).2⟩
    | cons w ws => exact absurd h.symm (hclose w ws _ _)
  | cons v vs =>
    cases ws with
    | nil => exact absurd h (hclose v vs _ _)
    | cons w ws =>
      rw [itemChars_cons, itemChars_cons, List.append_assoc, List.append_assoc] at h
      obtain ⟨rfl, hrest⟩ := chars_append_inj hv.1 hw.1 (follows_itemRest vs r)
        (follows_itemRest ws s) h
      cases vs with
      | nil =>
        cases ws with
        | nil => exact ⟨rfl, (List.cons.inj hrest).2⟩
        | cons w ws => simp [itemRest] at hrest
      | cons v' vs =>
        cases ws with
        | nil => simp [itemRest] at hrest
        | cons w ws =>
          obtain ⟨hvs, hrs⟩ := itemChars_append_inj hv.2 hw.2 (List.cons.inj hrest).2
          exact ⟨by rw [hvs], hrs⟩

theorem fieldChars_append_inj {fs gs : List (String × Json)} (hv : SoundFields fs)
    (hw : SoundFields gs) {r s : List Char}
    (h : fieldChars fs ++ '}' :: r = fieldChars gs ++ '}' :: s) : fs = gs ∧ r = s := by
  have hclose (k : String) (w : Json) (gs : List (String × Json)) (t u : List Char) :
      fieldChars ((k, w) :: gs) ++ t ≠ '}' :: u := by
    obtain ⟨x, hx⟩ := exists_fieldChars_eq_cons k w gs
    rw [hx]
    exact fun h => absurd (List.cons.inj h).1 (by decide)
  cases fs with
  | nil =>
    cases gs with
    | nil => exact ⟨rfl, (List.cons.inj h).2⟩
    | cons g gs => exact absurd h.symm (hclose g.1 g.2 gs _ _)
  | cons f fs =>
    obtain ⟨k, v⟩ := f
    cases gs with
    | nil => exact absurd h (hclose k v fs _ _)
    | cons g gs =>
      obtain ⟨k', w⟩ := g
      rw [fieldChars_cons, fieldChars_cons, List.append_assoc, List.append_assoc] at h
      obtain ⟨hk, hvalue⟩ := quote_append_inj h
      obtain rfl := String.toList_injective hk
      rw [List.cons_append, List.cons_append, List.append_assoc, List.append_assoc] at hvalue
      obtain ⟨rfl, hrest⟩ := chars_append_inj hv.1 hw.1 (follows_fieldRest fs r)
        (follows_fieldRest gs s) (List.cons.inj hvalue).2
      cases fs with
      | nil =>
        cases gs with
        | nil => exact ⟨rfl, (List.cons.inj hrest).2⟩
        | cons g gs => simp [fieldRest] at hrest
      | cons f fs =>
        cases gs with
        | nil => simp [fieldRest] at hrest
        | cons g gs =>
          obtain ⟨hfs, hrs⟩ := fieldChars_append_inj hv.2 hw.2 (List.cons.inj hrest).2
          exact ⟨by rw [hfs], hrs⟩

end

/-! ### No control characters -/

theorem le_hexDigit : ∀ n < 16, 32 ≤ (hexDigit n).toNat := by decide

theorem le_of_mem_escapeChar {c d : Char} (hd : d ∈ escapeChar c) : 32 ≤ d.toNat := by
  have hpair {a b : Char} (ha : 32 ≤ a.toNat) (hb : 32 ≤ b.toNat) (h : d ∈ [a, b]) :
      32 ≤ d.toNat := by
    rcases List.mem_pair.1 h with rfl | rfl
    · exact ha
    · exact hb
  unfold escapeChar at hd
  split_ifs at hd
  any_goals exact hpair (by decide) (by decide) hd
  · next hc =>
    simp only [List.mem_cons, List.not_mem_nil, or_false] at hd
    rcases hd with rfl | rfl | rfl | rfl | rfl | rfl
    · decide
    · decide
    · decide
    · decide
    · exact le_hexDigit _ (by omega)
    · exact le_hexDigit _ (by omega)
  · next hc =>
    rw [List.mem_singleton.1 hd]
    exact Nat.not_lt.1 hc

theorem le_of_mem_quote {cs : List Char} {c : Char} (hc : c ∈ quote cs) : 32 ≤ c.toNat := by
  rcases List.mem_cons.1 hc with rfl | hc
  · decide
  rcases List.mem_append.1 hc with hc | hc
  · obtain ⟨d, _, hd⟩ := List.mem_flatMap.1 hc
    exact le_of_mem_escapeChar hd
  · rw [List.mem_singleton.1 hc]
    decide

theorem le_of_all {cs : List Char} (h : cs.all (fun c => 32 ≤ c.toNat) = true) {c : Char}
    (hc : c ∈ cs) : 32 ≤ c.toNat :=
  of_decide_eq_true (List.all_eq_true.1 h c hc)

theorem le_of_isNumeral {c : Char} (hc : IsNumeral c) : 32 ≤ c.toNat := by
  rcases hc with hc | rfl | rfl | rfl | rfl
  · have : 48 ≤ c.toNat := by
      simp only [Char.isDigit, Bool.and_eq_true, decide_eq_true_eq] at hc
      exact UInt32.le_iff_toNat_le.1 hc.1
    omega
  all_goals decide

mutual

/-- **The text of a value has no control characters.** -/
theorem le_of_mem_chars {v : Json} {c : Char} (hc : c ∈ v.chars) : 32 ≤ c.toNat := by
  cases v with
  | null => exact le_of_all rfl hc
  | bool b => cases b <;> exact le_of_all rfl hc
  | number n => exact le_of_isNumeral (isNumeral_of_mem_number hc)
  | string s => exact le_of_mem_quote hc
  | array items =>
    rcases List.mem_cons.1 hc with rfl | hc
    · decide
    rcases List.mem_append.1 hc with hc | hc
    · exact le_of_mem_itemChars hc
    · rw [List.mem_singleton.1 hc]
      decide
  | object fields =>
    rcases List.mem_cons.1 hc with rfl | hc
    · decide
    rcases List.mem_append.1 hc with hc | hc
    · exact le_of_mem_fieldChars hc
    · rw [List.mem_singleton.1 hc]
      decide

theorem le_of_mem_itemChars {vs : List Json} {c : Char} (hc : c ∈ itemChars vs) :
    32 ≤ c.toNat := by
  cases vs with
  | nil => exact absurd hc List.not_mem_nil
  | cons v vs =>
    rw [itemChars_cons] at hc
    rcases List.mem_append.1 hc with hc | hc
    · exact le_of_mem_chars hc
    cases vs with
    | nil => exact absurd hc List.not_mem_nil
    | cons w ws =>
      rcases List.mem_cons.1 hc with rfl | hc
      · decide
      · exact le_of_mem_itemChars hc

theorem le_of_mem_fieldChars {fs : List (String × Json)} {c : Char} (hc : c ∈ fieldChars fs) :
    32 ≤ c.toNat := by
  cases fs with
  | nil => exact absurd hc List.not_mem_nil
  | cons f fs =>
    obtain ⟨k, v⟩ := f
    rw [fieldChars_cons] at hc
    rcases List.mem_append.1 hc with hc | hc
    · exact le_of_mem_quote hc
    rcases List.mem_cons.1 hc with rfl | hc
    · decide
    rcases List.mem_append.1 hc with hc | hc
    · exact le_of_mem_chars hc
    cases fs with
    | nil => exact absurd hc List.not_mem_nil
    | cons f fs =>
      rcases List.mem_cons.1 hc with rfl | hc
      · decide
      · exact le_of_mem_fieldChars hc

end

/-- **Two values with one text are one value.** -/
theorem compact_injective {v w : Json} (hv : Sound v) (hw : Sound w) (h : v.compact = w.compact) :
    v = w := by
  have hchars : v.chars ++ [] = w.chars ++ [] := by
    rw [List.append_nil, List.append_nil]
    exact String.ofList_injective h
  exact (chars_append_inj hv hw (by rintro c ⟨⟩) (by rintro c ⟨⟩) hchars).1

end SingleFile.Json
