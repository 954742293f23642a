import SingleFile.Proofs.Component.Behind
import SingleFile.Proofs.Component.Rendering

/-!
# Nested elements

The content of a block may have elements in it with the tag of the block (`Nested`).  Reading goes
over a start tag up to its first bracket, and takes it for a tag that closes itself just if a slash
stands before this bracket.  Where this is true of all tags (`Nested.Clear`), the depth that the
reader counts is that of the tree, so each element ends where it was closed (`contentFrom_render`).
It is true wherever no value of an attribute holds a bracket (`Nested.clear_of_plain`).
-/

namespace SingleFile

/-! ### Tags -/

/-- The characters that stand between the parts of a tag. -/
def isTagBlank (c : Char) : Bool := c = ' ' || c = '\t' || c = '\n' || c = '\r'

/-- An attribute of a nested tag, behind blank characters.  A value stands between two quotes. -/
structure QuotedAttribute where
  blank : List Char
  name : List Char
  value : Option (Char × List Char)

namespace QuotedAttribute

def inName (c : Char) : Bool :=
  !isBlank c && c ≠ '>' && c ≠ '/' && c ≠ '=' && c ≠ '"' && c ≠ '\''

def renderValue : Option (Char × List Char) → List Char
  | none => []
  | some (q, v) => '=' :: q :: (v ++ [q])

def render (a : QuotedAttribute) : List Char := a.blank ++ a.name ++ renderValue a.value

/-- A value has no quote of the kind that it stands between. -/
structure Sound (a : QuotedAttribute) : Prop where
  blank : a.blank ≠ [] ∧ ∀ c ∈ a.blank, isTagBlank c = true
  name : a.name ≠ [] ∧ ∀ c ∈ a.name, inName c = true
  value : ∀ x ∈ a.value, (x.1 = '"' ∨ x.1 = '\'') ∧ x.1 ∉ x.2

/-- No bracket stands in the value. -/
def Plain (a : QuotedAttribute) : Prop := ∀ x ∈ a.value, '>' ∉ x.2

end QuotedAttribute

/-- A start tag inside of a block. -/
structure NestedTag where
  name : List Char
  attributes : List QuotedAttribute
  blank : List Char

namespace NestedTag

/-- What stands between the name of a tag and its end. -/
def inside (t : NestedTag) (closesItself : Bool) : List Char :=
  t.attributes.flatMap QuotedAttribute.render ++ t.blank ++ if closesItself then ['/'] else []

def render (t : NestedTag) (closesItself : Bool) : List Char :=
  '<' :: (t.name ++ (t.inside closesItself ++ ['>']))

/-- The tag has the name of the block, in any ASCII case. -/
structure Sound (tag : List Char) (t : NestedTag) : Prop where
  name : t.name.map lowerAscii = tag.map lowerAscii
  attributes : ∀ a ∈ t.attributes, a.Sound
  blank : ∀ c ∈ t.blank, isTagBlank c = true

/-- The first bracket tells whether a tag closes itself, and no mark stands behind it. -/
def Clear (tag : List Char) (t : NestedTag) (closesItself : Bool) : Prop :=
  ∃ a b, t.inside closesItself ++ ['>'] = a ++ '>' :: b ∧ '>' ∉ a ∧
    (a.getLast? = some '/' ↔ closesItself = true) ∧
    ¬ HasMark ('<' :: tag) b ∧ ¬ HasMark ('<' :: '/' :: tag) b

end NestedTag

structure ClosingTag where
  name : List Char
  blank : List Char

namespace ClosingTag

def render (t : ClosingTag) : List Char := '<' :: '/' :: (t.name ++ (t.blank ++ ['>']))

structure Sound (tag : List Char) (t : ClosingTag) : Prop where
  name : t.name.map lowerAscii = tag.map lowerAscii
  blank : ∀ c ∈ t.blank, isTagBlank c = true

end ClosingTag

/-! ### Contents -/

/-- The content of a block with elements of its own name in it, each behind some text. -/
inductive Nested where
  | text (cs : List Char)
  | single (cs : List Char) (tag : NestedTag) (more : Nested)
  | pair (cs : List Char) (tag : NestedTag) (inner : Nested) (closing : ClosingTag) (more : Nested)

namespace Nested

def render : Nested → List Char
  | text cs => cs
  | single cs tag more => cs ++ (tag.render true ++ more.render)
  | pair cs tag inner closing more =>
    cs ++ (tag.render false ++ (inner.render ++ (closing.render ++ more.render)))

def IsText (tag cs : List Char) : Prop := ¬ HasMark ('<' :: tag) cs ∧ ¬ HasMark ('<' :: '/' :: tag) cs

/-- All tags have the name of the block, and the texts have none. -/
def Sound (name : List Char) : Nested → Prop
  | text cs => IsText name cs
  | single cs tag more => IsText name cs ∧ tag.Sound name ∧ more.Sound name
  | pair cs tag inner closing more =>
    IsText name cs ∧ tag.Sound name ∧ inner.Sound name ∧ closing.Sound name ∧ more.Sound name

/-- The first bracket of each tag tells whether the tag closes itself. -/
def Clear (name : List Char) : Nested → Prop
  | text _ => True
  | single _ tag more => tag.Clear name true ∧ more.Clear name
  | pair _ tag inner _ more => tag.Clear name false ∧ inner.Clear name ∧ more.Clear name

/-- No bracket stands in a value. -/
def Plain : Nested → Prop
  | text _ => True
  | single _ tag more => (∀ a ∈ tag.attributes, a.Plain) ∧ more.Plain
  | pair _ tag inner _ more => (∀ a ∈ tag.attributes, a.Plain) ∧ inner.Plain ∧ more.Plain

end Nested

/-! ### Tags without brackets in their values -/

theorem getLast?_ne_of_blank {cs : List Char} (h : ∀ c ∈ cs, isTagBlank c = true) :
    cs.getLast? ≠ some '/' := by
  intro hlast
  exact absurd (h '/' (List.mem_of_getLast? hlast)) (by decide)

namespace QuotedAttribute

variable {a : QuotedAttribute}

theorem Sound.not_mem_render (h : a.Sound) (hplain : a.Plain) : '>' ∉ a.render := by
  have hblank : '>' ∉ a.blank := fun hm => absurd (h.blank.2 _ hm) (by decide)
  have hname : '>' ∉ a.name := fun hm => absurd (h.name.2 _ hm) (by decide)
  have hvalue : '>' ∉ renderValue a.value := by
    cases hv : a.value with
    | none => simp [renderValue]
    | some x =>
      obtain ⟨q, v⟩ := x
      have hq : q ≠ '>' := by
        have hquote := (h.value _ hv).1
        rintro rfl
        simp at hquote
      have hin := hplain _ hv
      simp [renderValue, hq.symm, hin]
  simp [render, hblank, hname, hvalue]

/-- An attribute ends with its name or with a quote. -/
theorem Sound.getLast?_render (h : a.Sound) : ∃ c, a.render.getLast? = some c ∧ c ≠ '/' := by
  unfold render
  cases hv : a.value with
  | none =>
    obtain ⟨init, c, hc⟩ := (List.eq_nil_or_concat a.name).resolve_left h.name.1
    refine ⟨c, by simp [renderValue, hc], ?_⟩
    rintro rfl
    exact absurd (h.name.2 '/' (by simp [hc])) (by decide)
  | some x =>
    obtain ⟨q, v⟩ := x
    have hrender : a.blank ++ a.name ++ renderValue (some (q, v)) =
        (a.blank ++ a.name ++ '=' :: q :: v) ++ [q] := by simp [renderValue]
    refine ⟨q, by rw [hrender, List.getLast?_concat], ?_⟩
    have hquote := (h.value _ hv).1
    rintro rfl
    simp at hquote

end QuotedAttribute

namespace NestedTag

variable {tag : List Char} {t : NestedTag}

/-- The first bracket of a tag whose values have none is its end. -/
theorem Sound.clear_of_plain (h : t.Sound tag) (hplain : ∀ a ∈ t.attributes, a.Plain)
    (closesItself : Bool) : t.Clear tag closesItself := by
  have hnone : ∀ mark, ¬ HasMark mark [] := by
    rintro mark ⟨a, m, d, b, heq, -⟩
    simp at heq
  have hattributes : '>' ∉ t.attributes.flatMap QuotedAttribute.render := by
    intro hm
    obtain ⟨a, ha, hm⟩ := List.mem_flatMap.1 hm
    exact (h.attributes a ha).not_mem_render (hplain a ha) hm
  have hblank : '>' ∉ t.blank := fun hm => absurd (h.blank _ hm) (by decide)
  have hlast : (t.attributes.flatMap QuotedAttribute.render ++ t.blank).getLast? ≠ some '/' := by
    rw [List.getLast?_append]
    cases hb : t.blank.getLast? with
    | some c =>
      rw [Option.some_or, ← hb]
      exact getLast?_ne_of_blank h.blank
    | none =>
      rw [Option.none_or]
      rcases List.eq_nil_or_concat t.attributes with hnil | ⟨init, a, hinit⟩
      · simp [hnil]
      · obtain ⟨c, hc, hne⟩ := (h.attributes a (by simp [hinit])).getLast?_render
        simp [hinit, List.getLast?_append, hc, hne]
  refine ⟨t.inside closesItself, [], rfl, ?_, ?_, hnone _, hnone _⟩
  · unfold inside
    cases closesItself <;> simp [hattributes, hblank]
  · unfold inside
    cases closesItself with
    | true => simp
    | false =>
      rw [if_neg Bool.false_ne_true, List.append_nil]
      exact iff_of_false hlast Bool.false_ne_true

end NestedTag

/-- Where no value holds a bracket, all tags are clear. -/
theorem Nested.clear_of_plain {name : List Char} {c : Nested} (h : c.Sound name) (hplain : c.Plain) :
    c.Clear name := by
  induction c with
  | text cs => trivial
  | single cs tag more ih => exact ⟨h.2.1.clear_of_plain hplain.1 true, ih h.2.2 hplain.2⟩
  | pair cs tag inner closing more ihInner ihMore =>
    exact ⟨h.2.1.clear_of_plain hplain.1 false, ihInner h.2.2.1 hplain.2.1,
      ihMore h.2.2.2.2 hplain.2.2⟩

/-! ### Reading contents -/

namespace Markup

variable {tag : List Char} {depth : Nat}

def prepend (cs : List Char) (read : List Char × Bool × List Char) :
    List Char × Bool × List Char :=
  (cs ++ read.1, read.2)

@[simp] theorem prepend_nil (read : List Char × Bool × List Char) : prepend [] read = read := rfl

@[simp] theorem prepend_prepend (a b : List Char) (read : List Char × Bool × List Char) :
    prepend a (prepend b read) = prepend (a ++ b) read := by
  unfold prepend
  rw [List.append_assoc]

theorem atTag_of_ne {mark r : List Char} {c : Char} (hc : c ≠ '<') :
    atTag ('<' :: mark) (c :: r) = false := by
  refine Bool.eq_false_iff.2 fun h => ?_
  obtain ⟨m, rest, heq, hm, -⟩ := atTag_iff.1 h
  cases m with
  | nil => cases hm
  | cons d m =>
    obtain ⟨rfl, -⟩ := List.cons.inj heq
    exact hc (eq_of_lowerAscii_eq (List.cons.inj hm).1 (by decide))

/-- A mark that is not in a text does not start in it either, where the text ends with a bracket. -/
theorem atTag_of_concat {mark cs tail : List Char} {c : Char} (hmark : '>' ∉ mark)
    (h : ¬ HasMark mark (c :: cs ++ ['>'])) : atTag mark (c :: cs ++ '>' :: tail) = false := by
  refine Bool.eq_false_iff.2 fun ht => ?_
  obtain ⟨m, rest, heq, hm, he⟩ := atTag_iff.1 ht
  have hbracket : '>' ∉ m := by
    intro hin
    have hlow : '>' ∈ mark.map lowerAscii := by
      rw [← hm]
      exact List.mem_map.2 ⟨'>', hin, by decide⟩
    obtain ⟨y, hy, hlow⟩ := List.mem_map.1 hlow
    rw [eq_of_lowerAscii_eq hlow (by decide)] at hy
    exact hmark hy
  rcases List.append_eq_append_iff.1 heq with ⟨t, rfl, hrest⟩ | ⟨t, hcs, rfl⟩
  · cases t with
    | nil => exact h ⟨[], c :: cs, '>', [], by simp, by simpa using hm, rfl⟩
    | cons x t =>
      obtain ⟨rfl, -⟩ := List.cons.inj hrest
      exact hbracket (by simp)
  · cases t with
    | nil => exact h ⟨[], m, '>', [], by simp [hcs], hm, rfl⟩
    | cons x t => exact h ⟨[], m, x, t ++ ['>'], by simp [hcs], hm, by simpa [endsName] using he⟩

variable (depth) in
theorem contentFrom_cons {c : Char} {r : List Char}
    (hclosing : atTag ('<' :: '/' :: tag) (c :: r) = false)
    (hopening : atTag ('<' :: tag) (c :: r) = false) :
    contentFrom tag depth .text (c :: r) = prepend [c] (contentFrom tag depth .text r) := by
  simp [contentFrom, hclosing, hopening, prepend]

/-- Text is read over where no tag starts in it. -/
theorem contentFrom_of_atTag {cs tail : List Char}
    (hclosing : ∀ a c b, cs = a ++ c :: b → atTag ('<' :: '/' :: tag) (c :: b ++ tail) = false)
    (hopening : ∀ a c b, cs = a ++ c :: b → atTag ('<' :: tag) (c :: b ++ tail) = false) :
    contentFrom tag depth .text (cs ++ tail) = prepend cs (contentFrom tag depth .text tail) := by
  induction cs with
  | nil => rfl
  | cons c cs ih =>
    have hrest := ih (fun a d b h => hclosing (c :: a) d b (by rw [h]; rfl))
      (fun a d b h => hopening (c :: a) d b (by rw [h]; rfl))
    have hfirst := contentFrom_cons depth (hclosing [] c cs rfl) (hopening [] c cs rfl)
    exact hfirst.trans (congrArg (prepend [c]) hrest)

theorem contentFrom_of_not_mem {cs : List Char} (tail : List Char) (h : '<' ∉ cs) :
    contentFrom tag depth .text (cs ++ tail) = prepend cs (contentFrom tag depth .text tail) := by
  have hne : ∀ a c b, cs = a ++ c :: b → c ≠ '<' := by
    rintro a c b rfl rfl
    exact h (by simp)
  apply contentFrom_of_atTag
  · intro a c b hcs
    exact atTag_of_ne (hne a c b hcs)
  · intro a c b hcs
    exact atTag_of_ne (hne a c b hcs)

theorem hasMark_of_append {mark a cs : List Char} (h : HasMark mark cs) : HasMark mark (a ++ cs) := by
  induction a with
  | nil => exact h
  | cons c a ih => exact hasMark_cons c ih

variable (depth) in
/-- So is a text without marks, up to a tag. -/
theorem contentFrom_text {cs : List Char} (htag : '<' ∉ tag) (h : Nested.IsText tag cs)
    (tail : List Char) :
    contentFrom tag depth .text (cs ++ '<' :: tail) =
      prepend cs (contentFrom tag depth .text ('<' :: tail)) := by
  apply contentFrom_of_atTag
  · rintro a c b rfl
    exact atTag_eq_false (by simp [htag]) fun hm => h.2 (hasMark_of_append hm)
  · rintro a c b rfl
    exact atTag_eq_false htag fun hm => h.1 (hasMark_of_append hm)

/-- And so is a text without marks that ends with a bracket. -/
theorem contentFrom_concat {cs : List Char} (htag : '>' ∉ tag)
    (h : Nested.IsText tag (cs ++ ['>'])) (tail : List Char) :
    contentFrom tag depth .text (cs ++ '>' :: tail) =
      prepend (cs ++ ['>']) (contentFrom tag depth .text tail) := by
  have hcs : contentFrom tag depth .text (cs ++ '>' :: tail) =
      prepend cs (contentFrom tag depth .text ('>' :: tail)) := by
    apply contentFrom_of_atTag
    · rintro a c b rfl
      refine atTag_of_concat (by simp [htag]) fun hm => h.2 ?_
      rw [List.append_assoc]
      exact hasMark_of_append hm
    · rintro a c b rfl
      refine atTag_of_concat (by simp [htag]) fun hm => h.1 ?_
      rw [List.append_assoc]
      exact hasMark_of_append hm
  rw [hcs, contentFrom_cons depth (atTag_of_ne (by decide)) (atTag_of_ne (by decide)), prepend_prepend]

/-! ### Reading tags -/

theorem contentFrom_opening (xs r : List Char) :
    contentFrom tag depth (.opening xs.length) (xs ++ r) =
      prepend xs (contentFrom tag depth (.tag false) r) := by
  induction xs with
  | nil => cases r <;> simp [contentFrom]
  | cons x xs ih =>
    rw [List.cons_append, List.length_cons, contentFrom, ih]
    rfl

theorem contentFrom_closing (xs r : List Char) :
    contentFrom tag depth (.closing xs.length) (xs ++ r) =
      prepend xs (contentFrom tag depth .text r) := by
  induction xs with
  | nil => cases r <;> simp [contentFrom]
  | cons x xs ih =>
    rw [List.cons_append, List.length_cons, contentFrom, ih]
    rfl

/-- A tag is read up to its first bracket, and what stands before that counts. -/
theorem contentFrom_tag {a : List Char} (ha : '>' ∉ a) (slash : Bool) (r : List Char) :
    contentFrom tag depth (.tag slash) (a ++ '>' :: r) =
      prepend (a ++ ['>']) (contentFrom tag
        (if (a.getLast?.map fun c => decide (c = '/')).getD slash then depth else depth + 1) .text r) := by
  induction a generalizing slash with
  | nil =>
    have hclosing : atTag ('<' :: '/' :: tag) ('>' :: r) = false := atTag_of_ne (by decide)
    have hopening : atTag ('<' :: tag) ('>' :: r) = false := atTag_of_ne (by decide)
    cases slash <;> simp [contentFrom, hclosing, hopening, prepend]
  | cons c a ih =>
    have hc : c ≠ '>' := by
      rintro rfl
      exact ha List.mem_cons_self
    have hrest := ih (fun hm => ha (List.mem_cons_of_mem c hm)) (decide (c = '/'))
    have hlast : (((c :: a).getLast?).map fun c => decide (c = '/')).getD slash =
        ((a.getLast?).map fun c => decide (c = '/')).getD (decide (c = '/')) := by
      rw [List.getLast?_cons]
      cases a.getLast? <;> rfl
    rw [hlast, List.cons_append, contentFrom]
    simp [hc, hrest, prepend]

variable {t : NestedTag} {name rest : List Char}

theorem endsName_append {blank : List Char} (h : ∀ c ∈ blank, isTagBlank c = true)
    (hrest : endsName rest = true) : endsName (blank ++ rest) = true := by
  cases blank with
  | nil => exact hrest
  | cons c blank =>
    have hc := h c List.mem_cons_self
    simp only [isTagBlank, Bool.or_eq_true, decide_eq_true_eq] at hc
    simp only [List.cons_append, endsName, Bool.or_eq_true, decide_eq_true_eq]
    rcases hc with ((hc | hc) | hc) | hc <;> simp [hc]

/-- Behind its name a start tag goes on with a blank character, or it ends. -/
theorem endsName_inside (h : t.Sound tag) (closesItself : Bool) (r : List Char) :
    endsName (t.inside closesItself ++ '>' :: r) = true := by
  have hend : endsName ((if closesItself then ['/'] else []) ++ '>' :: r) = true := by
    cases closesItself <;> rfl
  unfold NestedTag.inside
  rw [List.append_assoc, List.append_assoc]
  cases hattributes : t.attributes with
  | nil =>
    rw [List.flatMap_nil, List.nil_append]
    exact endsName_append h.blank hend
  | cons a as =>
    have ha := (h.attributes a (by simp [hattributes])).blank
    obtain ⟨c, blank, hc⟩ := List.exists_cons_of_ne_nil ha.1
    have hblank : isTagBlank c = true := ha.2 c (by simp [hc])
    have hhead : endsName ([c] ++ []) = true := endsName_append (by simpa using hblank) rfl
    simpa [QuotedAttribute.render, hc, endsName] using hhead

/-- A start tag is no closing tag. -/
theorem atTag_closing_of_isName (htag : IsName startsTag inTag tag)
    (hname : name.map lowerAscii = tag.map lowerAscii) (r : List Char) :
    atTag ('<' :: '/' :: tag) ('<' :: (name ++ r)) = false := by
  refine Bool.eq_false_iff.2 fun h => ?_
  obtain ⟨m, rest, heq, hm, -⟩ := atTag_iff.1 h
  obtain ⟨c, s, rfl, hc, -⟩ := htag
  cases name with
  | nil => cases hname
  | cons d name =>
    rcases m with _ | ⟨x, _ | ⟨y, m⟩⟩
    · cases hm
    · simp at hm
    · obtain ⟨-, hm⟩ := List.cons.inj hm
      obtain ⟨-, heq⟩ := List.cons.inj heq
      obtain ⟨rfl, -⟩ := List.cons.inj heq
      have hslash : d = '/' := eq_of_lowerAscii_eq (List.cons.inj hm).1 (by decide)
      have hsame := (List.cons.inj hname).1
      rw [hslash] at hsame
      rw [eq_of_lowerAscii_eq hsame.symm (by decide)] at hc
      exact absurd hc (by decide)

variable (depth) in
/-- A start tag is read as it was written, if its first bracket tells how. -/
theorem contentFrom_start (htag : IsName startsTag inTag tag) (hraw : isRawText tag = false)
    (h : t.Sound tag) {closesItself : Bool} (hclear : t.Clear tag closesItself) (r : List Char) :
    contentFrom tag depth .text (t.render closesItself ++ r) =
      prepend (t.render closesItself)
        (contentFrom tag (if closesItself then depth else depth + 1) .text r) := by
  obtain ⟨a, b, hcut, ha, hslash, hopening, hclosing⟩ := hclear
  have hlength : tag.length = t.name.length := (length_eq_of_map_lowerAscii_eq h.name).symm
  have hinside : t.inside closesItself ++ '>' :: r = a ++ '>' :: (b ++ r) := by
    rw [← List.singleton_append, ← List.append_assoc, hcut, List.append_assoc, List.cons_append]
  have hrender : t.render closesItself ++ r = '<' :: (t.name ++ (a ++ '>' :: (b ++ r))) := by
    rw [← hinside]
    simp [NestedTag.render]
  have hat : atTag ('<' :: tag) ('<' :: (t.name ++ (a ++ '>' :: (b ++ r)))) = true := by
    refine atTag_iff.2 ⟨'<' :: t.name, a ++ '>' :: (b ++ r), rfl, by simp [h.name], ?_⟩
    rw [← hinside]
    exact endsName_inside h closesItself r
  have hnot := atTag_closing_of_isName htag h.name (a ++ '>' :: (b ++ r))
  -- what stands behind the first bracket is text again
  have hb : contentFrom tag (if closesItself then depth else depth + 1) .text (b ++ r) =
      prepend b (contentFrom tag (if closesItself then depth else depth + 1) .text r) := by
    rcases List.eq_nil_or_concat b with rfl | ⟨init, c, rfl⟩
    · rfl
    · have hends : t.inside closesItself ++ ['>'] = (a ++ '>' :: init) ++ [c] := by
        rw [hcut]
        simp
      obtain rfl : '>' = c := List.singleton_injective (List.append_inj_right' hends rfl)
      have hbracket : '>' ∉ tag := not_mem_of_isName htag (by decide) (by decide)
      rw [List.concat_eq_append] at hopening hclosing ⊢
      rw [List.append_assoc, List.singleton_append,
        contentFrom_concat hbracket ⟨hopening, hclosing⟩]
  have hdepth : (if (a.getLast?.map fun c => decide (c = '/')).getD false then depth else depth + 1) =
      if closesItself then depth else depth + 1 := by
    refine if_congr ?_ rfl rfl
    rw [← hslash]
    cases a.getLast? <;> simp
  have hstart : contentFrom tag depth .text ('<' :: (t.name ++ (a ++ '>' :: (b ++ r)))) =
      prepend ['<'] (contentFrom tag depth (.opening tag.length)
        (t.name ++ (a ++ '>' :: (b ++ r)))) := by
    simp [contentFrom, hnot, hat, hraw, prepend]
  have hwhole : t.render closesItself = ['<'] ++ t.name ++ (a ++ ['>']) ++ b := by
    apply (List.append_left_inj r).1
    rw [hrender]
    simp
  rw [hrender, hstart, hlength, contentFrom_opening, contentFrom_tag ha, hdepth, hb, prepend_prepend,
    prepend_prepend, prepend_prepend, hwhole]

variable (depth) in
/-- A closing tag takes one from the depth. -/
theorem contentFrom_end {t : ClosingTag} (h : t.Sound tag) (r : List Char) :
    contentFrom tag (depth + 1) .text (t.render ++ r) =
      prepend t.render (contentFrom tag depth .text r) := by
  have hlength : tag.length = t.name.length := (length_eq_of_map_lowerAscii_eq h.name).symm
  have hrender : t.render ++ r = '<' :: ('/' :: t.name ++ (t.blank ++ ['>'] ++ r)) := by
    simp [ClosingTag.render]
  have hat : atTag ('<' :: '/' :: tag) ('<' :: ('/' :: t.name ++ (t.blank ++ ['>'] ++ r))) = true := by
    refine atTag_iff.2 ⟨'<' :: '/' :: t.name, t.blank ++ ['>'] ++ r, rfl, by simp [h.name], ?_⟩
    rw [List.append_assoc]
    exact endsName_append h.blank rfl
  have hblank : '<' ∉ t.blank ++ ['>'] := by
    intro hm
    rcases List.mem_append.1 hm with hm | hm
    · exact absurd (h.blank _ hm) (by decide)
    · exact absurd hm (by decide)
  have hend : contentFrom tag (depth + 1) .text
      ('<' :: ('/' :: t.name ++ (t.blank ++ ['>'] ++ r))) =
        prepend ['<'] (contentFrom tag depth (.closing ('/' :: t.name).length)
          ('/' :: t.name ++ (t.blank ++ ['>'] ++ r))) := by
    rw [List.length_cons, ← hlength]
    simp only [contentFrom, hat]
    simp [prepend]
  rw [hrender, hend, contentFrom_closing, contentFrom_of_not_mem r hblank, prepend_prepend,
    prepend_prepend]
  simp [ClosingTag.render]

/-! ### Reading trees -/

variable (depth) in
/-- A tree is read as a whole, at any depth. -/
theorem contentFrom_render (htag : IsName startsTag inTag tag) (hraw : isRawText tag = false)
    {c : Nested} (h : c.Sound tag) (hclear : c.Clear tag) (tail : List Char) :
    contentFrom tag depth .text (c.render ++ '<' :: tail) =
      prepend c.render (contentFrom tag depth .text ('<' :: tail)) := by
  have hbracket : '<' ∉ tag := not_mem_of_isName htag (by decide) (by decide)
  induction c generalizing depth tail with
  | text cs => exact contentFrom_text depth hbracket h tail
  | single cs t more ih =>
    obtain ⟨htext, hstart, hmore⟩ := h
    have hrest := ih depth hmore hclear.2 tail
    have hread := contentFrom_start depth htag hraw hstart hclear.1
      (more.render ++ '<' :: tail)
    have hfirst := contentFrom_text depth hbracket htext
      (t.name ++ (t.inside true ++ ['>']) ++ (more.render ++ '<' :: tail))
    calc contentFrom tag depth .text ((cs ++ (t.render true ++ more.render)) ++ '<' :: tail)
        = contentFrom tag depth .text (cs ++ (t.render true ++ (more.render ++ '<' :: tail))) := by
          simp
      _ = prepend cs (contentFrom tag depth .text (t.render true ++ (more.render ++ '<' :: tail))) :=
          hfirst
      _ = prepend cs (prepend (t.render true) (prepend more.render
            (contentFrom tag depth .text ('<' :: tail)))) := by
          rw [hread, if_pos rfl, hrest]
      _ = _ := by simp [Nested.render]
  | pair cs t inner closing more ihInner ihMore =>
    obtain ⟨htext, hstart, hinner, hend, hmore⟩ := h
    have hrest := ihMore depth hmore hclear.2.2 tail
    have hclose := contentFrom_end depth hend (more.render ++ '<' :: tail)
    have hinside := ihInner (depth + 1) hinner hclear.2.1
      ('/' :: (closing.name ++ (closing.blank ++ ['>'])) ++ (more.render ++ '<' :: tail))
    have hread := contentFrom_start depth htag hraw hstart hclear.1
      (inner.render ++ (closing.render ++ (more.render ++ '<' :: tail)))
    have hfirst := contentFrom_text depth hbracket htext
      (t.name ++ (t.inside false ++ ['>']) ++
        (inner.render ++ (closing.render ++ (more.render ++ '<' :: tail))))
    calc contentFrom tag depth .text ((cs ++ (t.render false ++ (inner.render ++
            (closing.render ++ more.render)))) ++ '<' :: tail)
        = contentFrom tag depth .text (cs ++ (t.render false ++ (inner.render ++
            (closing.render ++ (more.render ++ '<' :: tail))))) := by
          simp
      _ = prepend cs (contentFrom tag depth .text (t.render false ++ (inner.render ++
            (closing.render ++ (more.render ++ '<' :: tail))))) := hfirst
      _ = prepend cs (prepend (t.render false) (contentFrom tag (depth + 1) .text (inner.render ++
            (closing.render ++ (more.render ++ '<' :: tail))))) := by
          rw [hread, if_neg Bool.false_ne_true]
      _ = prepend cs (prepend (t.render false) (prepend inner.render
            (contentFrom tag (depth + 1) .text (closing.render ++ (more.render ++ '<' :: tail))))) :=
          congrArg (fun x => prepend cs (prepend (t.render false) x)) hinside
      _ = prepend cs (prepend (t.render false) (prepend inner.render (prepend closing.render
            (prepend more.render (contentFrom tag depth .text ('<' :: tail)))))) := by
          rw [hclose, hrest]
      _ = _ := by simp [Nested.render]

/-- The content of a block with nested elements is read up to the closing tag of the block. -/
theorem content_nested (htag : IsName startsTag inTag tag) (hraw : isRawText tag = false)
    {c : Nested} (h : c.Sound tag) (hclear : c.Clear tag) (rest : List Char) :
    content tag (c.render ++ '<' :: '/' :: (tag ++ '>' :: rest)) =
      (c.render, true, '<' :: '/' :: (tag ++ '>' :: rest)) := by
  have hend : atTag ('<' :: '/' :: tag) ('<' :: '/' :: (tag ++ '>' :: rest)) = true :=
    atTag_iff.2 ⟨'<' :: '/' :: tag, '>' :: rest, rfl, rfl, rfl⟩
  have hlast : contentFrom tag 0 .text ('<' :: '/' :: (tag ++ '>' :: rest)) =
      ([], true, '<' :: '/' :: (tag ++ '>' :: rest)) := by
    simp [contentFrom, hend]
  unfold content
  rw [contentFrom_render 0 htag hraw h hclear, hlast]
  simp [prepend]

end Markup

/-! ### Files with a template in front -/

namespace Component

def templateText (content : List Char) : List Char :=
  "<template>".toList ++ content ++ "</template>".toList

def templateBlock (content : List Char) : TemplateBlock where
  span := ⟨0, byteLength (templateText content)⟩
  contentSpan := ⟨10, 10 + byteLength content⟩
  content := String.ofList content
  attributes := []
  lang := none
  src := none
  map := none
  functional := false

/-- A file with a template in front has this template, and all else as the rest of it alone. -/
def KeepsTemplate (content : List Char) (rest filename : String) : Prop :=
  Behind (templateText content) rest (String.ofList (templateText content ++ rest.toList))
    (templateBlock content) (parse rest filename)
    (parse (String.ofList (templateText content ++ rest.toList)) filename)

def bareTemplate : WrittenBlock := ⟨"template", [], "", false⟩

theorem sound_bareTemplate : bareTemplate.Sound := by decide

/-- The template is read up to its closing tag, if its content is. -/
theorem readBlock_template (filename source : String) (lines : LineIndex) {content rest : List Char}
    (h : Markup.content "template".toList
        (content ++ '<' :: '/' :: ("template".toList ++ '>' :: rest)) =
      (content, true, '<' :: '/' :: ("template".toList ++ '>' :: rest))) :
    readBlock { filename, source } lines ⟨0, templateText content ++ rest⟩ =
      ({ filename, source, template := some (templateBlock content) },
        ⟨byteLength (templateText content), rest⟩) := by
  have hfirst : "<template>".toList = '<' :: ("template".toList ++ ">".toList) := by decide
  have hlast : "</template>".toList = '<' :: '/' :: ("template".toList ++ ">".toList) := by decide
  have htext : templateText content ++ rest = '<' :: ("template".toList ++ (">".toList ++
      (content ++ '<' :: '/' :: ("template".toList ++ '>' :: rest)))) := by
    have hbracket : ">".toList ++ rest = '>' :: rest := rfl
    unfold templateText
    simp only [hfirst, hlast, List.append_assoc, List.cons_append, hbracket]
  have hsize : 10 + byteLength content + byteLength ('<' :: '/' :: ("template".toList ++ ">".toList)) =
      byteLength (templateText content) := by
    have hten : byteLength "<template>".toList = 10 := by decide
    unfold templateText
    rw [byteLength_append, byteLength_append, hten, hlast]
  have hcontent : Cursor.content ⟨10, content ++ '<' :: '/' :: ("template".toList ++ '>' :: rest)⟩
      "template".toList = (content, true,
        ⟨10 + byteLength content, '<' :: '/' :: ("template".toList ++ '>' :: rest)⟩) := by
    unfold Cursor.content
    simp only [h]
    rfl
  have hspelled : "template".toList.map lowerAscii = "template".toList.map lowerAscii := rfl
  have hclosing := readClosingTag_append (o := 10 + byteLength content) rest hspelled
  have hends : EndsTag (">".toList ++ (content ++ '<' :: '/' :: ("template".toList ++ '>' :: rest))) :=
    .inl (List.prefix_append _ _)
  have hlower : "template".toList.map lowerAscii = "template".toList := by decide
  rw [htext]
  generalize content ++ '<' :: '/' :: ("template".toList ++ '>' :: rest) = tail at *
  have hstart : (Cursor.next ⟨0, '<' :: ("template".toList ++ (">".toList ++ tail))⟩).skipBlank =
      ⟨1, "template".toList ++ (">".toList ++ tail)⟩ := next_skipBlank_append sound_bareTemplate.tag
  have hopened : 1 + byteLength "template".toList = 9 := by decide
  obtain ⟨hname, hattributes⟩ := readTag_render (o := 1) sound_bareTemplate hends
  simp only [bareTemplate, List.flatMap_nil, List.nil_append, byteLength_nil, Nat.add_zero,
    hopened] at hname hattributes
  have hend : readTagEnd ⟨9, ">".toList ++ tail⟩ = (false, ⟨10, tail⟩) := readTagEnd_bracket 9 tail
  unfold readBlock
  simp only [hstart, hname, hattributes, hend, hlower, hcontent, hclosing, hsize, String.ofList_toList,
    Bool.false_eq_true, if_false, if_true, Cursor.spanFrom]
  rfl

/-- The template is the first block of its file. -/
theorem parse_template {content rest : List Char} {filename source : String}
    (hsource : source.toList = templateText content ++ rest)
    (h : Markup.content "template".toList
        (content ++ '<' :: '/' :: ("template".toList ++ '>' :: rest)) =
      (content, true, '<' :: '/' :: ("template".toList ++ '>' :: rest))) :
    parse source filename = readBlocks (.ofText source) (rest.length + 1)
      { filename, source, template := some (templateBlock content) }
      ⟨byteLength (templateText content), rest⟩ := by
  have hblock := readBlock_template filename source (.ofText source) h
  have hfirst : "<template>".toList = '<' :: 't' :: "emplate>".toList := by decide
  obtain ⟨t, ht⟩ : ∃ t, templateText content ++ rest = '<' :: 't' :: t := by
    unfold templateText
    rw [hfirst]
    exact ⟨_, rfl⟩
  have hlength : rest.length < source.length := by
    have hpos : 0 < (templateText content).length := by
      unfold templateText
      rw [hfirst]
      exact Nat.succ_pos _
    rw [← String.length_toList, hsource, List.length_append]
    omega
  unfold parse Cursor.ofText
  rw [hsource]
  rw [ht] at hblock ⊢
  rw [readBlocks, Cursor.skipBlank_of_not_isBlank (by rintro c ⟨⟩; decide)]
  have hcomment : Cursor.comment? ⟨0, '<' :: 't' :: t⟩ = none := by
    simp [Cursor.comment?, Cursor.consume?, stripPrefix?]
  have hopen : (Cursor.startsWith ⟨0, '<' :: 't' :: t⟩ "<" &&
      !Cursor.startsWith ⟨0, '<' :: 't' :: t⟩ "</") = true := by
    simp [Cursor.startsWith, stripPrefix?]
  simp only [Cursor.atEnd, List.isEmpty_cons, Bool.false_eq_true, if_false, hcomment, hopen, if_true,
    hblock]
  exact readBlocks_congr_fuel _ _ hlength (Nat.lt_succ_self _)

/-- **A template with nested elements ends where it was closed**, and the rest of the file is read as
if it stood alone. -/
theorem keepsTemplate_render {c : Nested} (h : c.Sound "template".toList)
    (hclear : c.Clear "template".toList) (rest filename : String) :
    KeepsTemplate c.render rest filename := by
  have hcontent := Markup.content_nested sound_bareTemplate.tag (by decide) h hclear rest.toList
  have hstart : Behind (templateText c.render) rest
      (String.ofList (templateText c.render ++ rest.toList)) (templateBlock c.render)
      { filename, source := rest }
      { filename, source := String.ofList (templateText c.render ++ rest.toList),
        template := some (templateBlock c.render) } :=
    ⟨String.toList_ofList, rfl, rfl, rfl, rfl, rfl, rfl, rfl, rfl, rfl⟩
  have hrun := hstart.readBlocks (rest.length + 1) (.refl (Cursor.ofText rest))
  unfold KeepsTemplate
  rw [parse_template String.toList_ofList hcontent]
  exact hrun

end Component

/-! ### Some templates -/

instance (a : QuotedAttribute) : Decidable a.Sound :=
  decidable_of_iff ((a.blank ≠ [] ∧ a.blank.all isTagBlank = true) ∧
      (a.name ≠ [] ∧ a.name.all QuotedAttribute.inName = true) ∧
      ∀ x ∈ a.value, (x.1 = '"' ∨ x.1 = '\'') ∧ x.1 ∉ x.2)
    ⟨fun ⟨h₁, h₂, h₃⟩ => ⟨⟨h₁.1, List.all_eq_true.1 h₁.2⟩, ⟨h₂.1, List.all_eq_true.1 h₂.2⟩, h₃⟩,
      fun h => ⟨⟨h.blank.1, List.all_eq_true.2 h.blank.2⟩, ⟨h.name.1, List.all_eq_true.2 h.name.2⟩,
        h.value⟩⟩

instance (tag : List Char) (t : NestedTag) : Decidable (t.Sound tag) :=
  decidable_of_iff (t.name.map lowerAscii = tag.map lowerAscii ∧ (∀ a ∈ t.attributes, a.Sound) ∧
      t.blank.all isTagBlank = true)
    ⟨fun ⟨h₁, h₂, h₃⟩ => ⟨h₁, h₂, List.all_eq_true.1 h₃⟩,
      fun h => ⟨h.name, h.attributes, List.all_eq_true.2 h.blank⟩⟩

instance (tag : List Char) (t : ClosingTag) : Decidable (t.Sound tag) :=
  decidable_of_iff (t.name.map lowerAscii = tag.map lowerAscii ∧ t.blank.all isTagBlank = true)
    ⟨fun ⟨h₁, h₂⟩ => ⟨h₁, List.all_eq_true.1 h₂⟩, fun h => ⟨h.name, List.all_eq_true.2 h.blank⟩⟩

namespace Nested

instance (tag cs : List Char) : Decidable (IsText tag cs) := inferInstanceAs (Decidable (_ ∧ _))

instance decidableSound (name : List Char) : (c : Nested) → Decidable (c.Sound name)
  | text cs => inferInstanceAs (Decidable (IsText name cs))
  | single cs tag more =>
    have := decidableSound name more
    inferInstanceAs (Decidable (IsText name cs ∧ tag.Sound name ∧ more.Sound name))
  | pair cs tag inner closing more =>
    have := decidableSound name inner
    have := decidableSound name more
    inferInstanceAs (Decidable (IsText name cs ∧ tag.Sound name ∧ inner.Sound name ∧
      closing.Sound name ∧ more.Sound name))

end Nested

namespace Component

/-- A template with an element in it that has another one, which closes itself. -/
def arrowContent : Nested :=
  .pair "<div>".toList ⟨"template".toList, [⟨[' '], "#item".toList, some ('"', "a => b".toList)⟩], []⟩
    (.single "x".toList ⟨"TEMPLATE".toList, [⟨['\n'], "v-if".toList, some ('\'', "/".toList)⟩], []⟩
      (.text "<templates>".toList))
    ⟨"Template".toList, [' ']⟩ (.text "</div>".toList)

theorem keepsTemplate_arrowContent :
    arrowContent.Sound "template".toList ∧ arrowContent.Clear "template".toList ∧
      KeepsTemplate arrowContent.render "<script>let a</script>" "A.vue" := by
  have hsound : arrowContent.Sound "template".toList := by decide +kernel
  have hclear : arrowContent.Clear "template".toList :=
    ⟨⟨" #item=\"a =".toList, " b\">".toList, by decide, by decide, by decide, by decide +kernel,
        by decide +kernel⟩,
      ⟨⟨"\nv-if='/'/".toList, [], by decide, by decide, by decide, by decide +kernel,
        by decide +kernel⟩, trivial⟩, trivial⟩
  exact ⟨hsound, hclear, keepsTemplate_render hsound hclear _ _⟩

/-- A template with an element in it that closes itself, and a bracket in its value. -/
def comparedContent : Nested :=
  .single "<div>".toList
    ⟨"template".toList, [⟨[' '], "v-if".toList, some ('"', "a > b".toList)⟩], [' ']⟩
    (.text "</div>".toList)

/-- The tag that closes itself counts as one that is open, and so the template has no end. -/
theorem not_keepsTemplate_comparedContent :
    comparedContent.Sound "template".toList ∧
      ¬ KeepsTemplate comparedContent.render "<docs>x</docs>" "A.vue" := by
  refine ⟨by decide +kernel, ?_⟩
  intro h
  have hread : (parse (String.ofList (templateText comparedContent.render ++
      "<docs>x</docs>".toList)) "A.vue").template.map (·.content) ≠
        some (String.ofList comparedContent.render) := by decide +kernel
  rw [h.template] at hread
  exact hread rfl

end Component

end SingleFile
