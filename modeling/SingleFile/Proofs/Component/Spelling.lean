import SingleFile.Proofs.Component.Behind
import SingleFile.Proofs.Component.Loops
import SingleFile.Proofs.Component.Rendering

/-!
# How attributes are spelled

The value of an attribute may stand between double quotes, between single quotes, or bare
(`Spelling`).  A backslash keeps the character behind it from closing a quoted value, so such a
value is read as it is written just when it does not end with an odd number of backslashes
(`Markup.spanQuoted_quote`); a bare value ends at a slash too.  **`tagAttributes_spelled_iff`** says
that these are the only values that a spelling does not keep, whatever attributes stand around them.
-/

namespace SingleFile

/-- A way to write the value of an attribute. -/
inductive Spelling where
  | double
  | single
  | bare
deriving DecidableEq, Repr

namespace Spelling

/-- A value as it is written. -/
def write : Spelling → List Char → List Char
  | double, v => '"' :: (v ++ ['"'])
  | single, v => '\'' :: (v ++ ['\''])
  | bare, v => v

def backslashes (v : List Char) : Nat := (v.reverse.takeWhile (· = '\\')).length

/-- The values that a spelling can hold: a quoted one has no quote of its kind, and the backslashes
at its end come in pairs; a bare one has nothing that ends it. -/
def Holds : Spelling → List Char → Prop
  | double, v => '"' ∉ v ∧ backslashes v % 2 = 0
  | single, v => '\'' ∉ v ∧ backslashes v % 2 = 0
  | bare, v => v ≠ [] ∧ (∀ c ∈ v, Markup.inUnquoted c = true) ∧
      ∀ c ∈ v.head?, c ≠ '"' ∧ c ≠ '\''

/-- Of the plain values, those that a spelling keeps. -/
def Keeps : Spelling → List Char → Prop
  | double, v | single, v => backslashes v % 2 = 0
  | bare, v => ∀ c ∈ v, isBlank c = false ∧ c ≠ '/'

instance : (s : Spelling) → (v : List Char) → Decidable (s.Keeps v)
  | double, v | single, v => inferInstanceAs (Decidable (backslashes v % 2 = 0))
  | bare, v => decidable_of_iff (v.all (fun c => !isBlank c && c ≠ '/') = true) (by simp [Keeps])

end Spelling

/-- The characters that a value without quotes must not have: white space in the sense of markup,
quotes, brackets, the equals sign and the grave accent. -/
def needsQuotes : List Char :=
  ['\t', '\n', '\x0c', '\r', ' ', '"', '\'', '<', '>', '=', '\x60']

/-- The values that may be written without quotes. -/
def IsPlainValue (v : List Char) : Prop := v ≠ [] ∧ ∀ c ∈ v, c ∉ needsQuotes

instance (v : List Char) : Decidable (IsPlainValue v) :=
  decidable_of_iff (v ≠ [] ∧ v.all (· ∉ needsQuotes) = true) (by simp [IsPlainValue])

/-- A spelling that keeps a plain value can hold it. -/
theorem Spelling.Keeps.holds {s : Spelling} {v : List Char} (hv : IsPlainValue v)
    (h : s.Keeps v) : s.Holds v := by
  obtain ⟨hne, hplain⟩ := hv
  have hmem {c : Char} (hc : c ∈ needsQuotes) : c ∉ v := fun hcv => hplain c hcv hc
  cases s with
  | double => exact ⟨hmem (by decide), h⟩
  | single => exact ⟨hmem (by decide), h⟩
  | bare =>
    refine ⟨hne, fun c hc => ?_, fun c hc => ⟨?_, ?_⟩⟩
    · obtain ⟨hblank, hslash⟩ := h c hc
      have hgt : c ≠ '>' := fun heq => hmem (by decide) (heq ▸ hc)
      have hequals : c ≠ '=' := fun heq => hmem (by decide) (heq ▸ hc)
      simp [Markup.inUnquoted, hblank, hslash, hgt, hequals]
    · exact fun heq => hmem (by decide) (heq ▸ List.mem_of_mem_head? hc)
    · exact fun heq => hmem (by decide) (heq ▸ List.mem_of_mem_head? hc)

/-! ### Quoted values -/

namespace Markup

open Spelling

theorem backslashes_cons (c : Char) (r : List Char) :
    backslashes (c :: r) =
      if backslashes r = r.length ∧ c = '\\' then r.length + 1 else backslashes r := by
  unfold backslashes
  rw [List.reverse_cons, List.takeWhile_append, List.length_reverse]
  by_cases hall : (r.reverse.takeWhile (· = '\\')).length = r.length
  · rw [if_pos hall]
    by_cases hc : c = '\\' <;> simp [hall, hc]
  · rw [if_neg hall, if_neg fun h => hall h.1]

theorem backslashes_of_ne {c : Char} (hc : c ≠ '\\') (r : List Char) :
    backslashes (c :: r) = backslashes r := by
  rw [backslashes_cons, if_neg fun h => hc h.2]

theorem backslashes_le (v : List Char) : backslashes v ≤ v.length := by
  unfold backslashes
  have hle := (List.takeWhile_sublist (· = '\\') (l := v.reverse)).length_le
  rwa [List.length_reverse] at hle

/-- A backslash and the character behind it do not change whether the number is even. -/
theorem backslashes_pair (c : Char) (r : List Char) :
    backslashes ('\\' :: c :: r) % 2 = backslashes r % 2 := by
  have hle := backslashes_le r
  rw [backslashes_cons '\\', backslashes_cons c, List.length_cons]
  by_cases hall : backslashes r = r.length ∧ c = '\\'
  · rw [if_pos hall, if_pos ⟨rfl, rfl⟩, hall.1]
    omega
  · rw [if_neg hall, if_neg (by omega)]

/-- A quoted value ends at its quote where the backslashes before it come in pairs, and goes on behind
it otherwise. -/
theorem spanQuoted_quote {q : Char} (hslash : q ≠ '\\') (rest : List Char) {v : List Char}
    (hq : q ∉ v) :
    (backslashes v % 2 = 0 → spanQuoted q (v ++ q :: rest) = (v, rest)) ∧
      (backslashes v % 2 ≠ 0 → v.length < (spanQuoted q (v ++ q :: rest)).1.length) := by
  induction hn : v.length using Nat.strong_induction_on generalizing v with
  | _ n ih =>
    cases v with
    | nil =>
      have hend : spanQuoted q (q :: rest) = ([], rest) := by
        rw [spanQuoted, if_pos rfl]
        exact fun _ _ heq => absurd heq hslash
      exact ⟨fun _ => hend, fun h => absurd rfl h⟩
    | cons c r =>
      obtain ⟨hcq, hr⟩ := not_or.1 (mt List.mem_cons.2 hq)
      subst hn
      by_cases hc : c = '\\'
      · subst hc
        cases r with
        | nil =>
          refine ⟨fun h => absurd h (by decide), fun _ => ?_⟩
          show 1 < ('\\' :: q :: (spanQuoted q rest).1).length
          simp
        | cons d r =>
          obtain ⟨heven, hodd⟩ :=
            ih r.length (by simp only [List.length_cons]; omega) (fun h => hr (.tail d h)) rfl
          have hstep : spanQuoted q ('\\' :: d :: r ++ q :: rest) =
              ('\\' :: d :: (spanQuoted q (r ++ q :: rest)).1, (spanQuoted q (r ++ q :: rest)).2) := rfl
          rw [backslashes_pair, hstep]
          refine ⟨fun h => by rw [heven h], fun h => ?_⟩
          simpa using hodd h
      · obtain ⟨heven, hodd⟩ := ih r.length (by simp) hr rfl
        rw [backslashes_of_ne hc, List.cons_append, Cursor.spanQuoted_of_ne (Ne.symm hcq) (.inl hc)]
        refine ⟨fun h => by rw [heven h], fun h => ?_⟩
        simpa using hodd h

end Markup

/-! ### Values -/

namespace Component

open Cursor

/-- The value that stands behind an equals sign, and what is left behind it. -/
def valueIn (text : List Char) : List Char × List Char :=
  (readAttributeValue ⟨0, text⟩).map id Cursor.rest

theorem readAttributeValue_eq (o : Nat) (text : List Char) :
    (readAttributeValue ⟨o, text⟩).map id Cursor.rest = valueIn text := by
  have hshift : (⟨o, text⟩ : Cursor) = Cursor.shift o ⟨0, text⟩ := rfl
  rw [hshift, readAttributeValue_shift]
  rfl

theorem length_valueIn_le (text : List Char) : (valueIn text).2.length ≤ text.length := by
  obtain ⟨taken, hmoved⟩ := before_readAttributeValue ⟨0, text⟩
  have hcount : text.length = (taken ++ (valueIn text).2).length := congrArg List.length hmoved.1
  rw [List.length_append] at hcount
  omega

theorem valueIn_quoted {q : Char} (hq : q = '"' ∨ q = '\'') (r : List Char) :
    valueIn (q :: r) = Markup.spanQuoted q r := by
  have hblank : skipBlank ⟨0, q :: r⟩ = ⟨0, q :: r⟩ := by
    refine skipBlank_of_not_isBlank fun c hc => ?_
    obtain rfl := Option.some.inj hc
    rcases hq with rfl | rfl <;> decide
  unfold valueIn readAttributeValue quoted?
  rw [hblank]
  simp only [if_pos hq]
  rfl

/-- A value between quotes is read whole where the backslashes at its end come in pairs, and read on
otherwise. -/
theorem valueIn_quote {q : Char} (hq : q = '"' ∨ q = '\'') {v : List Char} (hv : q ∉ v)
    (after : List Char) :
    (Spelling.backslashes v % 2 = 0 → valueIn (q :: (v ++ [q]) ++ after) = (v, after)) ∧
      (Spelling.backslashes v % 2 ≠ 0 → (valueIn (q :: (v ++ [q]) ++ after)).1 ≠ v) := by
  have hslash : q ≠ '\\' := by rcases hq with rfl | rfl <;> decide
  obtain ⟨heven, hodd⟩ := Markup.spanQuoted_quote hslash after hv
  rw [List.cons_append, List.append_assoc, valueIn_quoted hq]
  exact ⟨heven, fun hne heq => Nat.lt_irrefl _ (congrArg List.length heq ▸ hodd hne)⟩

theorem valueIn_bare {text : List Char}
    (hquote : ∀ c ∈ (text.dropWhile isBlank).head?, c ≠ '"' ∧ c ≠ '\'') :
    valueIn text = ((text.dropWhile isBlank).takeWhile Markup.inUnquoted,
      (text.dropWhile isBlank).dropWhile Markup.inUnquoted) := by
  have hnone : Cursor.quoted? (skipBlank ⟨0, text⟩) = none := by
    unfold quoted?
    split
    · next c r hr =>
      replace hr : text.dropWhile isBlank = c :: r := hr
      exact if_neg (not_or.2 (hquote c (by rw [hr]; rfl)))
    · rfl
  unfold valueIn readAttributeValue
  simp only [hnone]
  rfl

/-- What may follow a value: a bare one ends at white space, or at the end of its tag. -/
def EndsValue (s : Spelling) (after : List Char) : Prop :=
  s = .bare → ∀ c ∈ after.head?, isBlank c = true ∨ c = '>'

theorem valueIn_write {s : Spelling} {v after : List Char} (hv : s.Holds v)
    (hafter : EndsValue s after) : valueIn (s.write v ++ after) = (v, after) := by
  cases s with
  | double => exact (valueIn_quote (.inl rfl) hv.1 after).1 hv.2
  | single => exact (valueIn_quote (.inr rfl) hv.1 after).1 hv.2
  | bare =>
    obtain ⟨hne, hbare, hquote⟩ := hv
    obtain ⟨c, r, rfl⟩ := List.exists_cons_of_ne_nil hne
    have hblank : isBlank c = false := by
      have hc := hbare c List.mem_cons_self
      simp only [Markup.inUnquoted, Bool.and_eq_true, Bool.not_eq_true'] at hc
      exact hc.1.1.1
    have hstart : (c :: r ++ after).dropWhile isBlank = c :: r ++ after := by
      rw [List.cons_append, List.dropWhile_cons_of_neg (by simp [hblank])]
    have hend : after.takeWhile Markup.inUnquoted = [] ∧
        after.dropWhile Markup.inUnquoted = after := by
      cases after with
      | nil => exact ⟨rfl, rfl⟩
      | cons d t =>
        have hd : Markup.inUnquoted d = false := by
          rcases hafter rfl d rfl with hd | rfl
          · simp [Markup.inUnquoted, hd]
          · decide
        simp [hd]
    rw [Spelling.write, valueIn_bare (by rw [hstart]; exact hquote), hstart,
      List.takeWhile_append_of_pos hbare, List.dropWhile_append_of_pos hbare, hend.1, hend.2,
      List.append_nil]

/-- A plain value that is read back has been kept. -/
theorem keeps_of_valueIn_write {s : Spelling} {v : List Char} (hv : IsPlainValue v)
    (h : (valueIn (s.write v ++ ['>'])).1 = v) : s.Keeps v := by
  have hmem {c : Char} (hc : c ∈ needsQuotes) : c ∉ v := fun hcv => hv.2 c hcv hc
  cases s with
  | double => exact not_not.1 fun hodd =>
      (valueIn_quote (.inl rfl) (hmem (by decide)) ['>']).2 hodd h
  | single => exact not_not.1 fun hodd =>
      (valueIn_quote (.inr rfl) (hmem (by decide)) ['>']).2 hodd h
  | bare =>
    have hquote : ∀ c ∈ ((v ++ ['>']).dropWhile isBlank).head?, c ≠ '"' ∧ c ≠ '\'' := by
      intro c hc
      have hcv := (List.dropWhile_sublist isBlank).mem (List.mem_of_mem_head? hc)
      rw [List.mem_append, List.mem_singleton] at hcv
      constructor <;> rintro rfl
      · exact hcv.elim (hmem (by decide)) (by decide)
      · exact hcv.elim (hmem (by decide)) (by decide)
    rw [Spelling.write, valueIn_bare hquote] at h
    intro c hc
    rw [← h] at hc
    have hin := List.mem_takeWhile_imp hc
    simp only [Markup.inUnquoted, Bool.and_eq_true, Bool.not_eq_true', decide_eq_true_eq] at hin
    exact ⟨hin.1.1.1, hin.1.2⟩

/-! ### Attributes -/

/-- The attributes of a start tag behind its name, and what is left behind them. -/
def tagAttributes (text : List Char) : List Attribute × List Char :=
  (readAttributes (text.length + 1) ⟨0, text⟩).map id Cursor.rest

theorem readAttributes_eq {fuel : Nat} (o : Nat) {text : List Char} (h : text.length < fuel) :
    (readAttributes fuel ⟨o, text⟩).map id Cursor.rest = tagAttributes text := by
  have hshift : (⟨o, text⟩ : Cursor) = Cursor.shift o ⟨0, text⟩ := rfl
  obtain ⟨last, -, more, -, hread⟩ :=
    Loop.exists_ends carries_attributesStep ([], ⟨0, text⟩) (standsIn_iff.2 (Before.refl _))
  rw [hshift, readAttributes_shift, tagAttributes, hread fuel h, hread _ (Nat.lt_succ_self _)]
  rfl

theorem tagAttributes_dropWhile (text : List Char) :
    tagAttributes (text.dropWhile isBlank) = tagAttributes text := by
  have hlength := (List.dropWhile_sublist isBlank (l := text)).length_le
  rw [← readAttributes_eq (skipBlank ⟨0, text⟩).offset (Nat.lt_succ_of_le hlength)]
  exact congrArg _ (readAttributes_skipBlank text.length ⟨0, text⟩)

/-- White space does not matter where the next attribute is looked for. -/
theorem tagAttributes_blank {gap : List Char} (hgap : ∀ c ∈ gap, isBlank c = true)
    (text : List Char) : tagAttributes (gap ++ text) = tagAttributes text := by
  rw [← tagAttributes_dropWhile, List.dropWhile_append_of_pos hgap, tagAttributes_dropWhile]

/-- A name is read whole, and behind it the value if there is an equals sign. -/
theorem tagAttributes_name {name rest : List Char}
    (hname : IsName Markup.startsAttribute Markup.inAttribute name)
    (hrest : ∀ c ∈ rest.head?, Markup.inAttribute c = false) :
    tagAttributes (name ++ rest) =
      match stripPrefix? ['='] (rest.dropWhile isBlank) with
      | some behind => (⟨String.ofList name, some (String.ofList (valueIn behind).1)⟩ ::
          (tagAttributes (valueIn behind).2).1, (tagAttributes (valueIn behind).2).2)
      | none => (⟨String.ofList name, none⟩ :: (tagAttributes rest).1, (tagAttributes rest).2) := by
  obtain ⟨c, r, hcr, hc, -⟩ := id hname
  have hblank : skipBlank ⟨0, name ++ rest⟩ = ⟨0, name ++ rest⟩ := by
    refine skipBlank_of_not_isBlank ?_
    rw [hcr]
    rintro d ⟨⟩
    exact not_isBlank_of_startsAttribute hc
  have hgt : c ≠ '>' := by rintro rfl; exact absurd hc (by decide)
  have hslash : c ≠ '/' := by rintro rfl; exact absurd hc (by decide)
  have hgo : (Cursor.startsWith ⟨0, name ++ rest⟩ ">" ||
      Cursor.startsWith ⟨0, name ++ rest⟩ "/>" || Cursor.atEnd ⟨0, name ++ rest⟩) = false := by
    simp [hcr, Cursor.startsWith, Cursor.atEnd, stripPrefix?, hgt.symm, hslash.symm]
  have hread : Cursor.attributeName? ⟨0, name ++ rest⟩ =
      some (name, ⟨0 + byteLength name, rest⟩) := by
    rw [Cursor.attributeName?, Markup.name?_append hname hrest]
    rfl
  have hlength : rest.length < (name ++ rest).length := by
    rw [hcr, List.cons_append, List.length_cons, List.length_append]
    omega
  rw [tagAttributes, readAttributes, hblank]
  simp only [hgo, hread, Bool.false_eq_true, if_false]
  have hequals : (skipBlank ⟨0 + byteLength name, rest⟩).consume? "=" =
      (stripPrefix? ['='] (rest.dropWhile isBlank)).map
        fun behind => (skipBlank ⟨0 + byteLength name, rest⟩).move ['='] behind := rfl
  rw [hequals]
  have hskipped := (List.dropWhile_sublist isBlank (l := rest)).length_le
  cases hstrip : stripPrefix? ['='] (rest.dropWhile isBlank) with
  | some behind =>
    have hbehind := length_valueIn_le behind
    have hcut : rest.dropWhile isBlank = '=' :: behind := stripPrefix?_eq_some_iff.1 hstrip
    rw [hcut, List.length_cons] at hskipped
    obtain ⟨o, hopened⟩ : ∃ o,
        (skipBlank ⟨0 + byteLength name, rest⟩).move ['='] behind = ⟨o, behind⟩ := ⟨_, rfl⟩
    have hlast := readAttributes_eq (readAttributeValue ⟨o, behind⟩).2.offset
      (show (valueIn behind).2.length < (name ++ rest).length by omega)
    simp only [Option.map_some, hopened]
    rw [← hlast, ← readAttributeValue_eq o behind]
    rfl
  | none =>
    have hlast := readAttributes_eq (skipBlank ⟨0 + byteLength name, rest⟩).offset
      (Nat.lt_of_le_of_lt hskipped hlength)
    rw [tagAttributes_dropWhile] at hlast
    rw [← hlast]
    rfl

theorem not_isBlank_of_inAttribute {c : Char} (h : Markup.inAttribute c = true) :
    isBlank c = false := by
  simp only [Markup.inAttribute, Bool.or_eq_true, decide_eq_true_eq] at h
  rcases h with ((((((h | h) | rfl) | rfl) | rfl) | rfl) | rfl) | rfl
  · have := toNat_of_isLetter h
    exact not_isBlank_of_ascii (by omega) (by omega)
  · simp only [isDigit, Bool.and_eq_true, decide_eq_true_eq] at h
    have hlo : 48 ≤ c.toNat := h.1
    have hhi : c.toNat ≤ 57 := h.2
    exact not_isBlank_of_ascii (by omega) (by omega)
  all_goals decide

theorem tagAttributes_flag {name gap next rest : List Char}
    (hname : IsName Markup.startsAttribute Markup.inAttribute name)
    (hgap : gap ≠ []) (hblank : ∀ c ∈ gap, isBlank c = true)
    (hnext : IsName Markup.startsAttribute Markup.inAttribute next) :
    tagAttributes (name ++ (gap ++ (next ++ rest))) =
      (⟨String.ofList name, none⟩ :: (tagAttributes (next ++ rest)).1,
        (tagAttributes (next ++ rest)).2) := by
  obtain ⟨b, gap', rfl⟩ := List.exists_cons_of_ne_nil hgap
  obtain ⟨c, r, rfl, hc, -⟩ := id hnext
  have hend : ∀ d ∈ (b :: gap' ++ (c :: r ++ rest)).head?, Markup.inAttribute d = false := by
    rintro d ⟨⟩
    refine Bool.eq_false_iff.2 fun hd => ?_
    simp [not_isBlank_of_inAttribute hd] at hblank
  have hstart : (b :: gap' ++ (c :: r ++ rest)).dropWhile isBlank = c :: (r ++ rest) := by
    rw [List.dropWhile_append_of_pos hblank, List.cons_append,
      List.dropWhile_cons_of_neg (by simp [not_isBlank_of_startsAttribute hc])]
  have hequals : stripPrefix? ['='] (c :: (r ++ rest)) = none := by
    refine stripPrefix?_eq_none ?_
    rintro ⟨t, ht⟩
    obtain ⟨rfl, -⟩ := List.cons.inj ht
    exact absurd hc (by decide)
  rw [tagAttributes_name hname hend, hstart, hequals, tagAttributes_blank hblank]

theorem tagAttributes_value {name : List Char} (behind : List Char)
    (hname : IsName Markup.startsAttribute Markup.inAttribute name) :
    tagAttributes (name ++ '=' :: behind) =
      (⟨String.ofList name, some (String.ofList (valueIn behind).1)⟩ ::
        (tagAttributes (valueIn behind).2).1, (tagAttributes (valueIn behind).2).2) := by
  rw [tagAttributes_name hname (by rintro c ⟨⟩; decide)]
  rfl

/-! ### Attributes next to each other -/

/-- A text is read as whole attributes, wherever one more attribute stands behind it. -/
def ReadAs (text : List Char) (attributes : List Attribute) : Prop :=
  ∀ gap next rest, gap ≠ [] → (∀ c ∈ gap, isBlank c = true) →
    IsName Markup.startsAttribute Markup.inAttribute next →
      tagAttributes (text ++ (gap ++ (next ++ rest))) =
        (attributes ++ (tagAttributes (next ++ rest)).1, (tagAttributes (next ++ rest)).2)

theorem readAs_nil : ReadAs [] [] :=
  fun _ next rest _ hblank _ => tagAttributes_blank hblank (next ++ rest)

section Behind

variable {text gap name : List Char} {attributes : List Attribute}

/-- One more attribute without a value. -/
theorem ReadAs.flag (h : ReadAs text attributes) (hgap : gap ≠ [])
    (hblank : ∀ c ∈ gap, isBlank c = true)
    (hname : IsName Markup.startsAttribute Markup.inAttribute name) :
    ReadAs (text ++ (gap ++ name)) (attributes ++ [⟨String.ofList name, none⟩]) := by
  intro gap' next rest hgap' hblank' hnext
  rw [List.append_assoc, List.append_assoc, h _ _ _ hgap hblank hname,
    tagAttributes_flag hname hgap' hblank' hnext, List.append_assoc]
  rfl

/-- One more attribute with a value, in any spelling that can hold it. -/
theorem ReadAs.value (h : ReadAs text attributes) (hgap : gap ≠ [])
    (hblank : ∀ c ∈ gap, isBlank c = true)
    (hname : IsName Markup.startsAttribute Markup.inAttribute name) {s : Spelling} {v : List Char}
    (hv : s.Holds v) :
    ReadAs (text ++ (gap ++ (name ++ '=' :: s.write v)))
      (attributes ++ [⟨String.ofList name, some (String.ofList v)⟩]) := by
  intro gap' next rest hgap' hblank' hnext
  have hafter : EndsValue s (gap' ++ (next ++ rest)) := by
    obtain ⟨b, gap', rfl⟩ := List.exists_cons_of_ne_nil hgap'
    rintro - d ⟨⟩
    exact .inl (hblank' _ List.mem_cons_self)
  rw [List.append_assoc, List.append_assoc, List.append_assoc, h _ _ _ hgap hblank hname,
    List.cons_append, tagAttributes_value _ hname, valueIn_write hv hafter, List.append_assoc,
    tagAttributes_blank hblank']
  rfl

end Behind

/-- **A plain value is read as it is written, whatever attributes stand around it, just when its
spelling keeps it**: between quotes when the backslashes at its end come in pairs, and bare when
there is neither a slash nor any white space in it. -/
theorem tagAttributes_spelled_iff {name v : List Char}
    (hname : IsName Markup.startsAttribute Markup.inAttribute name) (hv : IsPlainValue v)
    (s : Spelling) :
    (∀ before attributes gap after, ReadAs before attributes → gap ≠ [] →
      (∀ c ∈ gap, isBlank c = true) → EndsValue s after →
        tagAttributes (before ++ (gap ++ (name ++ '=' :: (s.write v ++ after)))) =
          (attributes ++ ⟨String.ofList name, some (String.ofList v)⟩ :: (tagAttributes after).1,
            (tagAttributes after).2)) ↔ s.Keeps v := by
  constructor
  · intro h
    have hblank : ∀ c ∈ [' '], isBlank c = true := List.forall_mem_singleton.2 (by decide)
    have hread := h [] [] [' '] ['>'] readAs_nil (by decide) hblank
      (by rintro - c ⟨⟩; exact .inr rfl)
    rw [List.nil_append, tagAttributes_blank hblank, tagAttributes_value _ hname] at hread
    obtain ⟨hhead, -⟩ := List.cons.inj (Prod.mk.inj hread).1
    refine keeps_of_valueIn_write hv (String.ofList_injective ?_)
    exact Option.some.inj (congrArg Attribute.value hhead)
  · intro hkeeps before attributes gap after hbefore hgap hblank hafter
    rw [hbefore gap name _ hgap hblank hname, tagAttributes_value _ hname,
      valueIn_write (hkeeps.holds hv) hafter]

/-- A bare value behind a name alone and a value between single quotes. -/
theorem tagAttributes_spelled_script :
    tagAttributes (" setup lang='ts'".toList ++ " src=a.js>".toList) =
      ([⟨"setup", none⟩, ⟨"lang", some "ts"⟩, ⟨"src", some "a.js"⟩], ['>']) := by
  have hgap : [' '] ≠ [] := by decide
  have hblank : ∀ c ∈ [' '], isBlank c = true := List.forall_mem_singleton.2 (by decide)
  have hsetupName : IsName Markup.startsAttribute Markup.inAttribute "setup".toList := by decide
  have hsetup : ReadAs " setup".toList [⟨"setup", none⟩] := readAs_nil.flag hgap hblank hsetupName
  have hlangName : IsName Markup.startsAttribute Markup.inAttribute "lang".toList := by decide
  have hquoted : Spelling.single.Holds "ts".toList := ⟨by decide, by decide⟩
  have hlang : ReadAs " setup lang='ts'".toList [⟨"setup", none⟩, ⟨"lang", some "ts"⟩] :=
    hsetup.value hgap hblank hlangName hquoted
  have hname : IsName Markup.startsAttribute Markup.inAttribute "src".toList := by decide
  have hplain : IsPlainValue "a.js".toList := by decide
  exact (tagAttributes_spelled_iff hname hplain .bare).2 (by decide) _ _ [' '] ['>'] hlang hgap hblank
    (by rintro - c ⟨⟩; exact .inr rfl)

/-- A path is a plain value, but a bare one ends at its first slash. -/
theorem not_same_spelled_path :
    IsName Markup.startsAttribute Markup.inAttribute "src".toList ∧ IsPlainValue "./a.js".toList ∧
      tagAttributes " src=\"./a.js\">".toList = ([⟨"src", some "./a.js"⟩], ['>']) ∧
      tagAttributes " src='./a.js'>".toList = ([⟨"src", some "./a.js"⟩], ['>']) ∧
      tagAttributes " src=./a.js>".toList = ([⟨"src", some "."⟩, ⟨"a.js", none⟩], ['>']) :=
  ⟨by decide, by decide, by decide, by decide, by decide⟩

end Component

end SingleFile
