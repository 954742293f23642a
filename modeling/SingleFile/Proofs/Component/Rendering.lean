import SingleFile.Proofs.Component.Written
import SingleFile.Proofs.Text.Cursor
import SingleFile.Proofs.Text.LineIndex

/-!
# Parsing undoes rendering

Each reader, started on the text of a piece and whatever follows it, stops where the piece ends:
`content_of_sound` for the content of a block, `readAttributes_render` for its attributes,
`readBlock_render` for the whole block, `readBlocks_text` and `readBlocks_comment` for what stands
between blocks.  **`parse_renderPieces`** puts them together.
-/

namespace SingleFile

/-! ### Names in any case -/

theorem lowerAscii_cases (c : Char) :
    lowerAscii c = c ∨ 97 ≤ (lowerAscii c).toNat ∧ (lowerAscii c).toNat ≤ 122 := by
  unfold lowerAscii
  split
  · next h =>
    have hlo : 65 ≤ c.toNat := h.1
    have hhi : c.toNat ≤ 90 := h.2
    right
    rw [toNat_ofNat_of_lt] <;> omega
  · exact .inl rfl

/-- No letter becomes a bracket or a slash. -/
theorem eq_of_lowerAscii_eq {c d : Char} (h : lowerAscii c = d) (hd : d.toNat < 97) : c = d := by
  rcases lowerAscii_cases c with hc | ⟨hc, -⟩
  · rw [← h, hc]
  · rw [h] at hc
    omega

theorem map_lowerAscii_map_lowerAscii (cs : List Char) :
    (cs.map lowerAscii).map lowerAscii = cs.map lowerAscii := by
  rw [List.map_map]
  refine List.map_congr_left fun c _ => ?_
  show lowerAscii (lowerAscii c) = lowerAscii c
  rcases lowerAscii_cases c with hc | ⟨hlo, -⟩
  · rw [hc, hc]
  · generalize lowerAscii c = d at *
    unfold lowerAscii
    rw [if_neg]
    rintro ⟨-, hz⟩
    have : d.toNat ≤ 90 := hz
    omega

namespace Markup

theorem not_mem_of_isName {first next : Char → Bool} {name : List Char} {x : Char}
    (h : IsName first next name) (hf : first x = false) (hn : next x = false) : x ∉ name := by
  obtain ⟨c, r, rfl, hc, hr⟩ := h
  rw [List.mem_cons]
  rintro (rfl | hx)
  · rw [hf] at hc
    exact absurd hc (by simp)
  · rw [hr x hx] at hn
    exact absurd hn (by simp)

/-- A name is read up to its end. -/
theorem name?_append {first next : Char → Bool} {name rest : List Char}
    (h : IsName first next name) (hrest : ∀ c ∈ rest.head?, next c = false) :
    name? first next (name ++ rest) = some (name, rest) := by
  obtain ⟨c, r, rfl, hc, hr⟩ := h
  have hrest' : rest.takeWhile next = [] ∧ rest.dropWhile next = rest := by
    cases rest with
    | nil => exact ⟨rfl, rfl⟩
    | cons d t => simp [hrest d rfl]
  rw [List.cons_append, name?, if_pos hc, List.takeWhile_append_of_pos hr,
    List.dropWhile_append_of_pos hr, hrest'.1, hrest'.2, List.append_nil]

/-! ### The content of a block -/

theorem atTag_iff {mark cs : List Char} :
    atTag mark cs = true ↔
      ∃ m rest, cs = m ++ rest ∧ m.map lowerAscii = mark.map lowerAscii ∧ endsName rest = true := by
  unfold atTag
  cases h : stripPrefixFold? mark cs with
  | some rest =>
    obtain ⟨m, rfl, hm⟩ := stripPrefixFold?_eq_some_iff.1 h
    constructor
    · exact fun he => ⟨m, rest, rfl, hm, he⟩
    · rintro ⟨m', rest', heq, hm', he⟩
      have hl : m.length = m'.length := length_eq_of_map_lowerAscii_eq (hm.trans hm'.symm)
      obtain ⟨-, rfl⟩ := List.append_inj heq hl
      exact he
  | none =>
    simp only [Bool.false_eq_true, false_iff]
    rintro ⟨m, rest, rfl, hm, -⟩
    rw [stripPrefixFold?_eq_some_iff.2 ⟨m, rfl, hm⟩] at h
    exact absurd h (by simp)

/-- Whether a text has a mark is found out by trying each place. -/
theorem hasMark_cons_iff {mark r : List Char} {c : Char} :
    HasMark mark (c :: r) ↔
      (atTag mark (c :: r) = true ∧ mark.length ≤ r.length) ∨ HasMark mark r := by
  constructor
  · rintro ⟨a, m, d, b, heq, hm, hd⟩
    have hl := length_eq_of_map_lowerAscii_eq hm
    cases a with
    | nil =>
      rw [List.nil_append] at heq
      refine .inl ⟨atTag_iff.2 ⟨m, d :: b, heq, hm, hd⟩, ?_⟩
      have := congrArg List.length heq
      simp only [List.length_cons, List.length_append] at this
      omega
    | cons x a =>
      obtain ⟨-, rfl⟩ := List.cons.inj heq
      exact .inr ⟨a, m, d, b, rfl, hm, hd⟩
  · rintro (⟨h, hlen⟩ | ⟨a, m, d, b, rfl, hm, hd⟩)
    · obtain ⟨m, rest, heq, hm, hend⟩ := atTag_iff.1 h
      have hl := length_eq_of_map_lowerAscii_eq hm
      cases rest with
      | nil =>
        have := congrArg List.length heq
        simp only [List.length_cons, List.length_append, List.length_nil] at this
        omega
      | cons d b => exact ⟨[], m, d, b, heq, hm, hend⟩
    · exact ⟨c :: a, m, d, b, rfl, hm, hd⟩

instance (mark : List Char) : (cs : List Char) → Decidable (HasMark mark cs)
  | [] => .isFalse (by rintro ⟨a, m, d, b, heq, -⟩; simp at heq)
  | _ :: r =>
    have := instDecidableHasMark mark r
    decidable_of_iff _ hasMark_cons_iff.symm

theorem hasMark_cons {mark cs : List Char} (c : Char) (h : HasMark mark cs) :
    HasMark mark (c :: cs) := by
  obtain ⟨a, m, d, b, rfl, hm, hd⟩ := h
  exact ⟨c :: a, m, d, b, rfl, hm, hd⟩

/-- A mark that is not in a text does not start in it either, where a bracket follows. -/
theorem atTag_eq_false {mark cs tail : List Char} {c : Char} (hmark : '<' ∉ mark)
    (h : ¬ HasMark ('<' :: mark) (c :: cs)) :
    atTag ('<' :: mark) (c :: (cs ++ '<' :: tail)) = false := by
  refine Bool.eq_false_iff.2 fun ht => ?_
  obtain ⟨m, rest, heq, hm, he⟩ := atTag_iff.1 ht
  rw [← List.cons_append] at heq
  rcases List.append_eq_append_iff.1 heq with ⟨t, rfl, hrest⟩ | ⟨t, hcs, rfl⟩
  · cases t with
    | nil =>
      obtain rfl : rest = '<' :: tail := by simpa using hrest.symm
      exact absurd he (by simp [endsName])
    | cons x t =>
      obtain ⟨rfl, -⟩ := List.cons.inj hrest
      have hin : '<' ∈ (cs ++ '<' :: t).map lowerAscii :=
        List.mem_map.2 ⟨'<', by simp, by decide⟩
      rw [show cs ++ '<' :: t = (c :: cs ++ '<' :: t).tail from rfl, List.map_tail, hm] at hin
      obtain ⟨y, hy, hlow⟩ := List.mem_map.1 hin
      rw [eq_of_lowerAscii_eq hlow (by decide)] at hy
      exact hmark hy
  · cases t with
    | nil => exact absurd he (by simp [endsName])
    | cons x t =>
      refine h ⟨[], m, x, t, by rw [List.nil_append]; exact hcs, hm, ?_⟩
      simpa [endsName] using he

theorem hasMark_congr {mark mark' cs : List Char} (h : mark.map lowerAscii = mark'.map lowerAscii) :
    HasMark mark cs ↔ HasMark mark' cs := by
  unfold HasMark
  rw [h]

/-- The content of a block ends at its closing tag and not before. -/
theorem content_append {tag spelled cs rest : List Char} (htag : '<' ∉ tag)
    (hspelled : spelled.map lowerAscii = tag.map lowerAscii)
    (hclosing : ¬ HasMark ('<' :: '/' :: tag) cs)
    (hopening : isRawText tag = false → ¬ HasMark ('<' :: tag) cs) :
    content tag (cs ++ '<' :: '/' :: (spelled ++ '>' :: rest)) =
      (cs, true, '<' :: '/' :: (spelled ++ '>' :: rest)) := by
  unfold content
  induction cs with
  | nil =>
    have hend : atTag ('<' :: '/' :: tag) ('<' :: '/' :: (spelled ++ '>' :: rest)) = true :=
      atTag_iff.2 ⟨'<' :: '/' :: spelled, '>' :: rest, rfl, by simp [hspelled], rfl⟩
    simp [contentFrom, hend]
  | cons c cs ih =>
    have hc : atTag ('<' :: '/' :: tag)
        (c :: (cs ++ '<' :: '/' :: (spelled ++ '>' :: rest))) = false :=
      atTag_eq_false (by simp [htag]) hclosing
    have ho : (!isRawText tag && atTag ('<' :: tag)
        (c :: (cs ++ '<' :: '/' :: (spelled ++ '>' :: rest)))) = false := by
      cases hraw : isRawText tag with
      | true => rfl
      | false => exact atTag_eq_false htag (hopening hraw)
    have hrest := ih (fun h => hclosing (hasMark_cons c h))
      fun hraw h => hopening hraw (hasMark_cons c h)
    simp [contentFrom, hc, ho, hrest]

/-! ### Attributes -/

/-- A value between double quotes ends at the next one. -/
theorem spanQuoted_append {v rest : List Char} (hq : '"' ∉ v) (hb : '\\' ∉ v) :
    spanQuoted '"' (v ++ '"' :: rest) = (v, rest) := by
  induction v with
  | nil => simp [spanQuoted]
  | cons c v ih =>
    have hc : c ≠ '"' := fun h => hq (by simp [h])
    have hcb : c ≠ '\\' := fun h => hb (by simp [h])
    have hv := ih (fun h => hq (by simp [h])) fun h => hb (by simp [h])
    rw [List.cons_append, spanQuoted, if_neg hc, hv]
    intro d r h
    exact absurd h hcb

end Markup

namespace Cursor

theorem quoted?_append {o : Nat} {v rest : List Char} (hq : '"' ∉ v) (hb : '\\' ∉ v) :
    quoted? ⟨o, '"' :: (v ++ '"' :: rest)⟩ =
      some (v, '"', ⟨o + byteLength ('"' :: (v ++ ['"'])), rest⟩) := by
  unfold quoted?
  simp only [true_or, if_true, Markup.spanQuoted_append hq hb, byteLength_cons, byteLength_append,
    byteLength_nil, Option.some.injEq, Prod.mk.injEq, Cursor.mk.injEq, and_true, true_and]
  omega

end Cursor

namespace Component

def EndsTag (rest : List Char) : Prop := ">".toList <+: rest ∨ "/>".toList <+: rest

theorem EndsTag.head {rest : List Char} (h : EndsTag rest) :
    ∃ c ∈ rest.head?, c = '>' ∨ c = '/' := by
  rcases h with ⟨t, rfl⟩ | ⟨t, rfl⟩
  · exact ⟨'>', rfl, .inl rfl⟩
  · exact ⟨'/', rfl, .inr rfl⟩

theorem EndsTag.of_head {p : Char → Bool} {rest : List Char} (h : EndsTag rest)
    (hgt : p '>' = false) (hslash : p '/' = false) : ∀ c ∈ rest.head?, p c = false := by
  intro c hc
  obtain ⟨d, hd, heq⟩ := h.head
  obtain rfl : c = d := Option.mem_unique hc hd
  rcases heq with rfl | rfl
  · exact hgt
  · exact hslash

theorem not_isBlank_of_ascii {c : Char} (hlo : 32 < c.toNat) (hhi : c.toNat < 128) :
    isBlank c = false := by
  simp [isBlank]
  omega

theorem toNat_of_isLetter {c : Char} (h : isLetter c = true) : 65 ≤ c.toNat ∧ c.toNat ≤ 122 := by
  simp only [isLetter, Bool.or_eq_true, Bool.and_eq_true, decide_eq_true_eq] at h
  have key : (97 ≤ c.toNat ∧ c.toNat ≤ 122) ∨ (65 ≤ c.toNat ∧ c.toNat ≤ 90) := h
  omega

theorem not_isBlank_of_startsAttribute {c : Char} (h : Markup.startsAttribute c = true) :
    isBlank c = false := by
  simp only [Markup.startsAttribute, Bool.or_eq_true, decide_eq_true_eq] at h
  rcases h with (((h | rfl) | rfl) | rfl) | rfl
  · have := toNat_of_isLetter h
    exact not_isBlank_of_ascii (by omega) (by omega)
  all_goals decide

theorem not_isBlank_of_startsTag {c : Char} (h : Markup.startsTag c = true) :
    isBlank c = false := by
  simp only [Markup.startsTag, Bool.or_eq_true, decide_eq_true_eq] at h
  rcases h with h | rfl
  · have := toNat_of_isLetter h
    exact not_isBlank_of_ascii (by omega) (by omega)
  · decide

theorem readAttributes_skipBlank (fuel : Nat) (cursor : Cursor) :
    readAttributes (fuel + 1) cursor.skipBlank = readAttributes (fuel + 1) cursor := by
  rw [readAttributes, readAttributes, Cursor.skipBlank_skipBlank]

theorem skipBlank_render {o : Nat} {a : Attribute} (rest : List Char)
    (h : IsName Markup.startsAttribute Markup.inAttribute a.name.toList) :
    Cursor.skipBlank ⟨o, a.render ++ rest⟩ =
      ⟨o + 1, a.name.toList ++ (renderValue a.value ++ rest)⟩ := by
  obtain ⟨c, r, hcr, hc, -⟩ := h
  rw [Attribute.render, List.cons_append, List.append_assoc, Cursor.skipBlank_cons (by decide)]
  refine Cursor.skipBlank_of_not_isBlank ?_
  simpa [hcr] using not_isBlank_of_startsAttribute hc

/-- What follows an attribute starts with a space or ends the tag. -/
theorem head_attributes {as : List Attribute} {rest : List Char}
    (hname : ∀ a ∈ as, IsName Markup.startsAttribute Markup.inAttribute a.name.toList)
    (hrest : EndsTag rest) :
    (∀ d ∈ (as.flatMap Attribute.render ++ rest).head?, Markup.inAttribute d = false) ∧
      ∀ o, ¬ "=".toList <+: (Cursor.skipBlank ⟨o, as.flatMap Attribute.render ++ rest⟩).rest := by
  cases as with
  | nil =>
    refine ⟨hrest.of_head (by decide) (by decide), fun o => ?_⟩
    rw [List.flatMap_nil, List.nil_append,
      Cursor.skipBlank_of_not_isBlank (hrest.of_head (by decide) (by decide))]
    obtain ⟨c, hc, heq⟩ := hrest.head
    rintro ⟨t, rfl⟩
    obtain rfl : c = '=' := by simpa [eq_comm] using hc
    simp at heq
  | cons a as =>
    refine ⟨by rintro d ⟨⟩; decide, fun o => ?_⟩
    rw [List.flatMap_cons, List.append_assoc, skipBlank_render _ (hname a List.mem_cons_self)]
    obtain ⟨c, r, hcr, hc, -⟩ := hname a List.mem_cons_self
    rw [hcr]
    rintro ⟨t, ht⟩
    obtain ⟨rfl, -⟩ := List.cons.inj ht
    exact absurd hc (by decide)

/-- The value of an attribute is read up to its closing quote. -/
theorem readAttributeValue_append {o : Nat} {v : String} (rest : List Char) (hq : '"' ∉ v.toList)
    (hb : '\\' ∉ v.toList) :
    readAttributeValue ⟨o, '"' :: (v.toList ++ '"' :: rest)⟩ =
      (v.toList, ⟨o + byteLength ('"' :: (v.toList ++ ['"'])), rest⟩) := by
  unfold readAttributeValue
  rw [Cursor.skipBlank_of_not_isBlank (by rintro c ⟨⟩; decide)]
  simp only [Cursor.quoted?_append hq hb]

/-- One attribute is read, and the others are left. -/
theorem readAttributes_cons {fuel o : Nat} {a : Attribute} {as : List Attribute} {rest : List Char}
    (hname : ∀ b ∈ a :: as, IsName Markup.startsAttribute Markup.inAttribute b.name.toList)
    (hvalue : ∀ v ∈ a.value, '"' ∉ v.toList ∧ '\\' ∉ v.toList) (hrest : EndsTag rest) :
    readAttributes (fuel + 2) ⟨o, a.render ++ (as.flatMap Attribute.render ++ rest)⟩ =
      (a :: (readAttributes (fuel + 1)
          ⟨o + byteLength a.render, as.flatMap Attribute.render ++ rest⟩).1,
        (readAttributes (fuel + 1)
          ⟨o + byteLength a.render, as.flatMap Attribute.render ++ rest⟩).2) := by
  have ha := hname a List.mem_cons_self
  obtain ⟨htail, heq⟩ := head_attributes (fun b hb => hname b (List.mem_cons_of_mem a hb)) hrest
  generalize as.flatMap Attribute.render ++ rest = tail at htail heq ⊢
  have hval : ∀ d ∈ (renderValue a.value ++ tail).head?, Markup.inAttribute d = false := by
    cases a.value with
    | none => exact htail
    | some v => rintro d ⟨⟩; decide
  obtain ⟨c, r, hcr, hc, -⟩ := id ha
  have hgt : c ≠ '>' := by rintro rfl; exact absurd hc (by decide)
  have hslash : c ≠ '/' := by rintro rfl; exact absurd hc (by decide)
  have hgo : (Cursor.startsWith ⟨o + 1, a.name.toList ++ (renderValue a.value ++ tail)⟩ ">" ||
      Cursor.startsWith ⟨o + 1, a.name.toList ++ (renderValue a.value ++ tail)⟩ "/>" ||
      Cursor.atEnd ⟨o + 1, a.name.toList ++ (renderValue a.value ++ tail)⟩) = false := by
    simp [hcr, Cursor.startsWith, Cursor.atEnd, stripPrefix?, hgt.symm, hslash.symm]
  have hread : Cursor.attributeName? ⟨o + 1, a.name.toList ++ (renderValue a.value ++ tail)⟩ =
      some (a.name.toList, ⟨o + 1 + byteLength a.name.toList, renderValue a.value ++ tail⟩) := by
    rw [Cursor.attributeName?, Markup.name?_append ha hval]
    rfl
  rw [readAttributes, skipBlank_render tail ha]
  simp only [hgo, hread, Bool.false_eq_true, if_false]
  obtain ⟨name, value⟩ := a
  cases value with
  | none =>
    have hsize : o + byteLength (Attribute.render ⟨name, none⟩) = o + 1 + byteLength name.toList := by
      simp [Attribute.render, renderValue, Char.utf8Size]
      omega
    simp only [renderValue, List.nil_append, Cursor.consume?_eq_none (heq _),
      readAttributes_skipBlank, hsize, String.ofList_toList]
  | some v =>
    obtain ⟨hq, hb⟩ := hvalue v rfl
    have hsize : o + byteLength (Attribute.render ⟨name, some v⟩) =
        o + 1 + byteLength name.toList + 1 + byteLength ('"' :: (v.toList ++ ['"'])) := by
      simp [Attribute.render, renderValue, Char.utf8Size]
      omega
    have hequals (p : Nat) (t : List Char) :
        (Cursor.skipBlank ⟨p, '=' :: t⟩).consume? "=" = some ⟨p + 1, t⟩ := by
      rw [Cursor.skipBlank_of_not_isBlank (by rintro c ⟨⟩; decide)]
      exact Cursor.consume?_append "="
    simp only [renderValue, List.cons_append, List.append_assoc, List.nil_append, hequals,
      readAttributeValue_append tail hq hb, hsize, String.ofList_toList]

/-- Attributes are read up to the end of the tag. -/
theorem readAttributes_render {fuel o : Nat} {as : List Attribute} {rest : List Char}
    (hname : ∀ a ∈ as, IsName Markup.startsAttribute Markup.inAttribute a.name.toList)
    (hvalue : ∀ a ∈ as, ∀ v ∈ a.value, '"' ∉ v.toList ∧ '\\' ∉ v.toList)
    (hrest : EndsTag rest) (hfuel : as.length < fuel) :
    readAttributes fuel ⟨o, as.flatMap Attribute.render ++ rest⟩ =
      (as, ⟨o + byteLength (as.flatMap Attribute.render), rest⟩) := by
  induction as generalizing fuel o with
  | nil =>
    obtain ⟨fuel, rfl⟩ := Nat.exists_eq_succ_of_ne_zero (Nat.ne_of_gt hfuel)
    have hblank := Cursor.skipBlank_of_not_isBlank (o := o) (hrest.of_head (by decide) (by decide))
    rw [List.flatMap_nil, List.nil_append, readAttributes, hblank, if_pos]
    · rfl
    · rcases hrest with h | h
      · rw [Cursor.startsWith_iff.2 h, Bool.true_or, Bool.true_or]
      · rw [Cursor.startsWith_iff.2 h, Bool.or_true, Bool.true_or]
  | cons a as ih =>
    obtain ⟨fuel, rfl⟩ : ∃ n, fuel = n + 2 := ⟨fuel - 2, by rw [List.length_cons] at hfuel; omega⟩
    rw [List.flatMap_cons, List.append_assoc,
      readAttributes_cons hname (hvalue a List.mem_cons_self) hrest,
      ih (fun b hb => hname b (List.mem_cons_of_mem a hb))
        (fun b hb => hvalue b (List.mem_cons_of_mem a hb)) (by rw [List.length_cons] at hfuel; omega),
      byteLength_append, Nat.add_assoc]

/-! ### Blocks -/

theorem length_le_flatMap_render (as : List Attribute) :
    as.length ≤ (as.flatMap Attribute.render).length := by
  induction as with
  | nil => exact Nat.le_refl 0
  | cons a as ih =>
    rw [List.flatMap_cons, List.length_append, List.length_cons, Attribute.render, List.length_cons]
    omega

/-- The name and the attributes of a start tag are read. -/
theorem readTag_render {o : Nat} {w : WrittenBlock} (hw : w.Sound) {rest : List Char}
    (hrest : EndsTag rest) :
    Cursor.tagName? ⟨o, w.tag.toList ++ (w.attributes.flatMap Attribute.render ++ rest)⟩ =
        some (w.tag.toList,
          ⟨o + byteLength w.tag.toList, w.attributes.flatMap Attribute.render ++ rest⟩) ∧
      readAttributes ((w.attributes.flatMap Attribute.render ++ rest).length + 1)
          ⟨o + byteLength w.tag.toList, w.attributes.flatMap Attribute.render ++ rest⟩ =
        (w.attributes, ⟨o + byteLength w.tag.toList +
          byteLength (w.attributes.flatMap Attribute.render), rest⟩) := by
  constructor
  · rw [Cursor.tagName?, Markup.name?_append hw.tag]
    · rfl
    · cases w.attributes with
      | nil => exact hrest.of_head (by decide) (by decide)
      | cons a as => rintro d ⟨⟩; decide
  · refine readAttributes_render hw.name hw.value hrest ?_
    have := length_le_flatMap_render w.attributes
    rw [List.length_append]
    omega

theorem not_mem_kind {w : WrittenBlock} (hw : w.Sound) : '<' ∉ w.kind.toList := by
  rw [WrittenBlock.kind, String.toList_ofList]
  intro h
  obtain ⟨d, hd, hlow⟩ := List.mem_map.1 h
  rw [eq_of_lowerAscii_eq hlow (by decide)] at hd
  exact Markup.not_mem_of_isName hw.tag (by decide) (by decide) hd

/-- The content of a written block ends at its closing tag. -/
theorem content_render {w : WrittenBlock} (hw : w.Sound) (rest : List Char) :
    Markup.content w.kind.toList
        (w.content.toList ++ '<' :: '/' :: (w.tag.toList ++ '>' :: rest)) =
      (w.content.toList, true, '<' :: '/' :: (w.tag.toList ++ '>' :: rest)) := by
  have hkind : w.kind.toList.map lowerAscii = w.tag.toList.map lowerAscii := by
    rw [WrittenBlock.kind, String.toList_ofList, map_lowerAscii_map_lowerAscii]
  refine Markup.content_append (not_mem_kind hw) hkind.symm ?_ ?_
  · exact fun h => hw.unclosed ((Markup.hasMark_congr (by simp [hkind])).1 h)
  · intro hraw h
    simp only [Markup.isRawText, Bool.or_eq_false_iff, beq_eq_false_iff_ne, ne_eq] at hraw
    refine hw.flat ?_ ?_ ((Markup.hasMark_congr (by simp [hkind])).1 h)
    · exact fun hs => hraw.1 (by rw [hs])
    · exact fun hs => hraw.2 (by rw [hs])

/-- The closing tag is read up to its bracket. -/
theorem readClosingTag_append {o : Nat} {tag : String} {spelled : List Char} (rest : List Char)
    (h : spelled.map lowerAscii = tag.toList.map lowerAscii) :
    readClosingTag ⟨o, '<' :: '/' :: (spelled ++ '>' :: rest)⟩ tag =
      ⟨o + byteLength ('<' :: '/' :: (spelled ++ ">".toList)), rest⟩ := by
  have hspelled : ('<' :: '/' :: spelled).map lowerAscii = ("</" ++ tag).toList.map lowerAscii := by
    simp [h]
  have hfold := Cursor.consumeFold?_append (o := o) (b := '>' :: rest) hspelled
  have hbracket : ">".toList = [] ++ ['>'] := rfl
  have huntil := Cursor.takeUntil_append (o := o + byteLength ('<' :: '/' :: spelled)) (a := [])
    (b := rest) hbracket (by simp)
  have hlast := Cursor.consume_append (o := o + byteLength ('<' :: '/' :: spelled)) (b := rest) ">"
  have hsize : o + byteLength ('<' :: '/' :: (spelled ++ ">".toList)) =
      o + byteLength ('<' :: '/' :: spelled) + byteLength ">".toList := by
    simp
    omega
  unfold readClosingTag
  rw [show '<' :: '/' :: (spelled ++ '>' :: rest) = '<' :: '/' :: spelled ++ '>' :: rest from rfl,
    hfold, hsize, ← hlast]
  exact congrArg (fun x => x.2.consume ">") huntil

theorem next_skipBlank_append {o : Nat} {tag rest : List Char}
    (h : IsName Markup.startsTag Markup.inTag tag) :
    (Cursor.next ⟨o, '<' :: (tag ++ rest)⟩).skipBlank = ⟨o + 1, tag ++ rest⟩ := by
  obtain ⟨c, r, rfl, hc, -⟩ := h
  exact Cursor.skipBlank_of_not_isBlank (by rintro d ⟨⟩; exact not_isBlank_of_startsTag hc)

theorem readTagEnd_slash (o : Nat) (rest : List Char) :
    readTagEnd ⟨o, "/>".toList ++ rest⟩ = (true, ⟨o + 2, rest⟩) := by
  unfold readTagEnd
  rw [Cursor.skipBlank_of_not_isBlank (by rintro c ⟨⟩; decide)]
  simp only [Cursor.consume?_append]
  rfl

theorem readTagEnd_bracket (o : Nat) (rest : List Char) :
    readTagEnd ⟨o, ">".toList ++ rest⟩ = (false, ⟨o + 1, rest⟩) := by
  have hnot : ¬ "/>".toList <+: ">".toList ++ rest := by
    rintro ⟨t, ht⟩
    exact absurd (List.cons.inj ht).1 (by decide)
  unfold readTagEnd
  rw [Cursor.skipBlank_of_not_isBlank (by rintro c ⟨⟩; decide)]
  simp only [Cursor.consume?_eq_none hnot, Cursor.consume_append]
  rfl

section Block

variable (c : Component) (lines : LineIndex) {b : PlacedBlock} (hb : b.Sound) (rest : List Char)

include hb

/-- A block that closes itself is read up to the end of its tag. -/
theorem readBlock_render_slash (hself : b.closesItself = true) :
    readBlock c lines ⟨byteLength b.before, b.render ++ rest⟩ =
      (addBlock { c with problems := c.problems ++ b.contentProblems } lines b.kind b.toBlock,
        ⟨byteLength (b.before ++ b.render), rest⟩) := by
  have hcontent := hb.empty hself
  have hrest : EndsTag ("/>".toList ++ rest) := .inr (List.prefix_append _ _)
  obtain ⟨hname, hattr⟩ := readTag_render (o := byteLength b.before + 1) hb hrest
  have hrender : b.render ++ rest =
      '<' :: (b.tag.toList ++ (b.attributes.flatMap Attribute.render ++ ("/>".toList ++ rest))) := by
    simp [WrittenBlock.render, WrittenBlock.opening, WrittenBlock.closing, hself, hcontent]
  have hstop : byteLength b.before + 1 + byteLength b.tag.toList +
      byteLength (b.attributes.flatMap Attribute.render) + 2 = byteLength b.beforeContent := by
    simp [PlacedBlock.beforeContent, WrittenBlock.opening, hself, Char.utf8Size]
    omega
  have hsize : byteLength (b.before ++ b.render) = byteLength b.beforeContent := by
    simp [PlacedBlock.beforeContent, WrittenBlock.render, WrittenBlock.closing, hself, hcontent]
  have hblank : allBlank [] = true := rfl
  rw [hrender, readBlock]
  simp only [next_skipBlank_append hb.tag, hname, hattr, readTagEnd_slash, hstop, if_true,
    Cursor.spanFrom, hblank, PlacedBlock.contentProblems, PlacedBlock.toBlock, PlacedBlock.src,
    PlacedBlock.span, hcontent, hsize, WrittenBlock.kind, Bool.not_true, Bool.and_false,
    Bool.false_eq_true, if_false, WrittenBlock.value?_attributes, String.toList_empty,
    List.append_nil, String.ofList_nil]

/-- A block with a closing tag is read up to the end of that. -/
theorem readBlock_render_bracket (hself : b.closesItself = false) :
    readBlock c lines ⟨byteLength b.before, b.render ++ rest⟩ =
      (addBlock { c with problems := c.problems ++ b.contentProblems } lines b.kind b.toBlock,
        ⟨byteLength (b.before ++ b.render), rest⟩) := by
  have hrest : EndsTag (">".toList ++ (b.content.toList ++
      '<' :: '/' :: (b.tag.toList ++ '>' :: rest))) := .inl (List.prefix_append _ _)
  obtain ⟨hname, hattr⟩ := readTag_render (o := byteLength b.before + 1) hb hrest
  have hrender : b.render ++ rest = '<' :: (b.tag.toList ++ (b.attributes.flatMap Attribute.render ++
      (">".toList ++ (b.content.toList ++ '<' :: '/' :: (b.tag.toList ++ '>' :: rest))))) := by
    simp [WrittenBlock.render, WrittenBlock.opening, WrittenBlock.closing, hself]
  have hstop : byteLength b.before + 1 + byteLength b.tag.toList +
      byteLength (b.attributes.flatMap Attribute.render) + 1 = byteLength b.beforeContent := by
    simp [PlacedBlock.beforeContent, WrittenBlock.opening, hself, Char.utf8Size]
    omega
  have hsize : byteLength (b.beforeContent ++ b.content.toList) +
      byteLength ('<' :: '/' :: (b.tag.toList ++ ">".toList)) =
      byteLength (b.before ++ b.render) := by
    simp [PlacedBlock.beforeContent, WrittenBlock.render, WrittenBlock.closing, hself]
    omega
  have hkind : b.tag.toList.map lowerAscii = b.kind.toList := by
    rw [WrittenBlock.kind, String.toList_ofList]
  have hcontent : Cursor.content ⟨byteLength b.beforeContent, b.content.toList ++
      '<' :: '/' :: (b.tag.toList ++ '>' :: rest)⟩ b.kind.toList =
        (b.content.toList, true, ⟨byteLength (b.beforeContent ++ b.content.toList),
          '<' :: '/' :: (b.tag.toList ++ '>' :: rest)⟩) := by
    have hread := content_render hb rest
    unfold Cursor.content
    simp only [hread, byteLength_append]
    rfl
  have hspelled : b.tag.toList.map lowerAscii = b.kind.toList.map lowerAscii := by
    rw [← hkind, map_lowerAscii_map_lowerAscii]
  have hclosing := readClosingTag_append (o := byteLength (b.beforeContent ++ b.content.toList))
    rest hspelled
  rw [hrender, readBlock]
  simp only [next_skipBlank_append hb.tag, hname, hattr, readTagEnd_bracket, hstop, if_true,
    Cursor.spanFrom, PlacedBlock.contentProblems, PlacedBlock.toBlock, PlacedBlock.src,
    PlacedBlock.span, hkind, hcontent, hclosing, hsize, Bool.false_eq_true, if_false,
    WrittenBlock.value?_attributes, String.ofList_toList]
  split
  · next h => simp only [h, if_true]
  · next h => simp only [h, if_false, Bool.false_eq_true, List.append_nil]

/-- A block is read up to its end, and put among those of the component. -/
theorem readBlock_render :
    readBlock c lines ⟨byteLength b.before, b.render ++ rest⟩ =
      (addBlock { c with problems := c.problems ++ b.contentProblems } lines b.kind b.toBlock,
        ⟨byteLength (b.before ++ b.render), rest⟩) := by
  cases hself : b.closesItself with
  | true => exact readBlock_render_slash c lines hb rest hself
  | false => exact readBlock_render_bracket c lines hb rest hself

end Block

/-! ### The file -/

theorem readBlocks_skipBlank (lines : LineIndex) (fuel : Nat) (c : Component) (cursor : Cursor) :
    readBlocks lines (fuel + 1) c cursor.skipBlank = readBlocks lines (fuel + 1) c cursor := by
  rw [readBlocks, readBlocks, Cursor.skipBlank_skipBlank]

section Run

variable {lines : LineIndex} {c : Component} {o : Nat} {rest : List Char} {result : Component}

/-- Text between blocks is skipped. -/
theorem readBlocks_text {cs : List Char} (hcs : '<' ∉ cs)
    (h : ∀ fuel, rest.length < fuel → readBlocks lines fuel c ⟨o + byteLength cs, rest⟩ = result) :
    ∀ fuel, (cs ++ rest).length < fuel → readBlocks lines fuel c ⟨o, cs ++ rest⟩ = result := by
  induction cs generalizing o with
  | nil => simpa using h
  | cons d cs ih =>
    intro fuel hfuel
    obtain ⟨fuel, rfl⟩ := Nat.exists_eq_succ_of_ne_zero (Nat.ne_of_gt (Nat.zero_lt_of_lt hfuel))
    rw [List.cons_append, List.length_cons] at hfuel
    have hd : d ≠ '<' := fun hd => hcs (by simp [hd])
    have hnext := ih (o := o + d.utf8Size) (fun hm => hcs (by simp [hm])) (by
      intro fuel hf
      rw [Nat.add_assoc]
      exact h fuel hf)
    by_cases hb : isBlank d = true
    · rw [List.cons_append, Nat.succ_eq_add_one, ← readBlocks_skipBlank, Cursor.skipBlank_cons hb,
        readBlocks_skipBlank]
      exact hnext _ (by omega)
    · have hcomment : Cursor.comment? ⟨o, d :: (cs ++ rest)⟩ = none := by
        simp [Cursor.comment?, Cursor.consume?, stripPrefix?, hd.symm]
      have hstart : Cursor.startsWith ⟨o, d :: (cs ++ rest)⟩ "<" = false := by
        simp [Cursor.startsWith, stripPrefix?, hd.symm]
      rw [List.cons_append, readBlocks, Cursor.skipBlank_of_not_isBlank (by
        rintro x ⟨⟩
        exact Bool.eq_false_iff.2 hb)]
      simp only [Cursor.atEnd, List.isEmpty_cons, hcomment, hstart, Bool.false_and,
        Bool.false_eq_true, if_false]
      exact hnext _ (by omega)

/-- A closed comment is skipped. -/
theorem readBlocks_comment {body : List Char} (hbody : ¬ "-->".toList <:+: body)
    (h : ∀ fuel, rest.length < fuel →
      readBlocks lines fuel c ⟨o + byteLength (Piece.comment body).render, rest⟩ = result) :
    ∀ fuel, ((Piece.comment body).render ++ rest).length < fuel →
      readBlocks lines fuel c ⟨o, (Piece.comment body).render ++ rest⟩ = result := by
  intro fuel hfuel
  obtain ⟨fuel, rfl⟩ := Nat.exists_eq_succ_of_ne_zero (Nat.ne_of_gt (Nat.zero_lt_of_lt hfuel))
  have hend : ¬ "-->".toList <:+: body ++ "--".toList := fun hin =>
    hbody (infix_of_infix_append_of_last (c := '>') (t := "--".toList) (by decide) hin)
  have hmark : "-->".toList = "--".toList ++ ['>'] := rfl
  have huntil := Cursor.takeUntil_append (o := o + byteLength "<!--".toList) (a := body) (b := rest)
    hmark hend
  have hread : Cursor.comment? ⟨o, (Piece.comment body).render ++ rest⟩ =
      some (body, ⟨o + byteLength (Piece.comment body).render, rest⟩) := by
    rw [Piece.render, List.append_assoc, List.append_assoc, Cursor.comment?, Cursor.consume?_append,
      Option.map_some]
    simp only [huntil, Cursor.consume_append, byteLength_append, Nat.add_assoc]
  rw [readBlocks, Cursor.skipBlank_of_not_isBlank (by rintro d ⟨⟩; decide)]
  simp only [hread]
  rw [if_neg (by simp [Cursor.atEnd, Piece.render])]
  refine h fuel ?_
  have : 0 < (Piece.comment body).render.length := by simp [Piece.render]
  rw [List.length_append] at hfuel
  omega

/-- A block is read as one, and the rest is read after it. -/
theorem readBlocks_block {b : PlacedBlock} (hb : b.Sound)
    (h : ∀ fuel, rest.length < fuel → readBlocks lines fuel
      (addBlock { c with problems := c.problems ++ b.contentProblems } lines b.kind b.toBlock)
      ⟨byteLength (b.before ++ b.render), rest⟩ = result) :
    ∀ fuel, (b.render ++ rest).length < fuel →
      readBlocks lines fuel c ⟨byteLength b.before, b.render ++ rest⟩ = result := by
  intro fuel hfuel
  obtain ⟨fuel, rfl⟩ := Nat.exists_eq_succ_of_ne_zero (Nat.ne_of_gt (Nat.zero_lt_of_lt hfuel))
  obtain ⟨d, r, hd, hstart, -⟩ := hb.tag
  have hbang : d ≠ '!' := by rintro rfl; exact absurd hstart (by decide)
  have hslash : d ≠ '/' := by rintro rfl; exact absurd hstart (by decide)
  obtain ⟨t, ht⟩ : ∃ t, b.render = '<' :: d :: t := by
    simp [WrittenBlock.render, WrittenBlock.opening, hd]
  have hblock := readBlock_render c lines hb rest
  rw [readBlocks, Cursor.skipBlank_of_not_isBlank (by rw [ht]; rintro x ⟨⟩; decide)]
  have hcomment : Cursor.comment? ⟨byteLength b.before, b.render ++ rest⟩ = none := by
    simp [Cursor.comment?, Cursor.consume?, stripPrefix?, ht, hbang.symm]
  have hopen : (Cursor.startsWith ⟨byteLength b.before, b.render ++ rest⟩ "<" &&
      !Cursor.startsWith ⟨byteLength b.before, b.render ++ rest⟩ "</") = true := by
    simp [Cursor.startsWith, stripPrefix?, ht, hslash.symm]
  have hatEnd : Cursor.atEnd ⟨byteLength b.before, b.render ++ rest⟩ = false := by
    simp [Cursor.atEnd, ht]
  simp only [hatEnd, hcomment, hopen, hblock, Bool.false_eq_true, if_false, if_true]
  refine h fuel ?_
  rw [ht, List.length_append, List.length_cons] at hfuel
  omega

end Run

/-- The blocks of a written file are read one after the other. -/
theorem readBlocks_renderPieces {filename source : String} {before : List Char} {ps : List Piece}
    {bs : List PlacedBlock} (hps : ∀ p ∈ ps, p.Sound)
    (hsource : source.toList = before ++ renderPieces ps) :
    ∀ fuel, (renderPieces ps).length < fuel →
      readBlocks (.ofText source) fuel (ofWritten filename source bs)
          ⟨byteLength before, renderPieces ps⟩ =
        ofWritten filename source (bs ++ placed before ps) := by
  induction ps generalizing before bs with
  | nil =>
    intro fuel hfuel
    obtain ⟨fuel, rfl⟩ := Nat.exists_eq_succ_of_ne_zero (Nat.ne_of_gt (Nat.zero_lt_of_lt hfuel))
    rw [placed, List.append_nil]
    rfl
  | cons p ps ih =>
    have hp := hps p List.mem_cons_self
    have hps' : ∀ q ∈ ps, q.Sound := fun q hq => hps q (List.mem_cons_of_mem p hq)
    have hsource' : source.toList = (before ++ p.render) ++ renderPieces ps := by
      rw [hsource, renderPieces, List.flatMap_cons, List.append_assoc]
      rfl
    have hcons : renderPieces (p :: ps) = p.render ++ renderPieces ps := List.flatMap_cons
    rw [hcons]
    have hnext (cs : List PlacedBlock) := @ih (before ++ p.render) cs hps' hsource'
    rw [byteLength_append] at hnext
    cases p with
    | text cs => exact readBlocks_text hp (hnext bs)
    | comment body => exact readBlocks_comment hp (hnext bs)
    | block w =>
      have hline : ((LineIndex.ofText source).position
          (byteLength (PlacedBlock.mk w before).beforeContent)).line =
          breaks (PlacedBlock.mk w before).beforeContent := by
        have hsplit : source.toList = (PlacedBlock.mk w before).beforeContent ++
            (w.content.toList ++ w.closing ++ renderPieces ps) := by
          rw [hsource']
          simp [PlacedBlock.beforeContent, Piece.render, WrittenBlock.render]
        exact LineIndex.line_position hsplit
      have hrun := hnext (bs ++ [⟨w, before⟩])
      rw [← ofWritten_append hline, ← byteLength_append, List.append_assoc] at hrun
      exact readBlocks_block (b := ⟨w, before⟩) hp hrun

/-- **Parsing undoes rendering**: a written file is read as the component that was written. -/
theorem parse_renderPieces (filename : String) {ps : List Piece} (hps : ∀ p ∈ ps, p.Sound) :
    parse (String.ofList (renderPieces ps)) filename =
      ofWritten filename (String.ofList (renderPieces ps)) (placed [] ps) := by
  have hsource : (String.ofList (renderPieces ps)).toList = [] ++ renderPieces ps := by simp
  have hrun := @readBlocks_renderPieces filename _ [] ps [] hps hsource
    ((String.ofList (renderPieces ps)).length + 1) (by simp)
  rw [List.nil_append] at hrun
  rw [← hrun, parse, Cursor.ofText, String.toList_ofList]
  rfl

end Component

/-! ### A written file -/

instance (first next : Char → Bool) : (name : List Char) → Decidable (IsName first next name)
  | [] => .isFalse (by rintro ⟨c, r, h, -⟩; simp at h)
  | c :: r => decidable_of_iff (first c = true ∧ r.all next = true)
      ⟨fun ⟨hc, hr⟩ => ⟨c, r, rfl, hc, List.all_eq_true.1 hr⟩,
        by rintro ⟨_, _, ⟨⟩, hc, hr⟩; exact ⟨hc, List.all_eq_true.2 hr⟩⟩

instance (w : WrittenBlock) : Decidable w.Sound :=
  decidable_of_iff (IsName Markup.startsTag Markup.inTag w.tag.toList ∧
      (∀ a ∈ w.attributes, IsName Markup.startsAttribute Markup.inAttribute a.name.toList) ∧
      (∀ a ∈ w.attributes, ∀ v ∈ a.value, '"' ∉ v.toList ∧ '\\' ∉ v.toList) ∧
      ¬ HasMark ('<' :: '/' :: w.tag.toList) w.content.toList ∧
      (w.kind ≠ "script" → w.kind ≠ "style" → ¬ HasMark ('<' :: w.tag.toList) w.content.toList) ∧
      (w.closesItself = true → w.content = ""))
    ⟨fun ⟨h₁, h₂, h₃, h₄, h₅, h₆⟩ => ⟨h₁, h₂, h₃, h₄, h₅, h₆⟩,
      fun h => ⟨h.tag, h.name, h.value, h.unclosed, h.flat, h.empty⟩⟩

instance : (p : Piece) → Decidable p.Sound
  | .text cs => inferInstanceAs (Decidable ('<' ∉ cs))
  | .comment body => inferInstanceAs (Decidable (¬ "-->".toList <:+: body))
  | .block w => inferInstanceAs (Decidable w.Sound)

/-- A file with tags in a comment, parts of tags in contents, and a script too many. -/
def writtenSample : List Piece :=
  [.text "intro > \n".toList,
    .comment "<script>-- no block --</script>-".toList,
    .block ⟨"Template", [⟨"FUNCTIONAL", none⟩, ⟨"lang", some "pug > <html/>"⟩],
      "<templates></template-x>\n</templat", false⟩,
    .block ⟨"script", [⟨"src", some "./a.js"⟩], "const a = '<script>' // é𝄞", false⟩,
    .text "\u00a0 ".toList,
    .block ⟨"SCRIPT", [], "export default {}", false⟩,
    .block ⟨"script", [⟨"setup", none⟩], "", true⟩,
    .block ⟨"style", [⟨"module", some ""⟩, ⟨"module", some "late"⟩], ".a {}", false⟩,
    .block ⟨"i18n", [⟨"@x", some "it's"⟩], "{}", false⟩]

theorem parse_writtenSample :
    (∀ p ∈ writtenSample, p.Sound) ∧
      Component.parse (String.ofList (renderPieces writtenSample)) "App.vue" =
        Component.ofWritten "App.vue" (String.ofList (renderPieces writtenSample))
          (placed [] writtenSample) :=
  ⟨by decide +kernel, Component.parse_renderPieces "App.vue" (by decide +kernel)⟩

end SingleFile
