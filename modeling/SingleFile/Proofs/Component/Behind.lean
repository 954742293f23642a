import SingleFile.Proofs.Component.Cut
import SingleFile.Proofs.SourceMap.Relocate

/-!
# Blocks behind other text

Readers do not look at the offset of their cursor, so what they find in a text they find in it behind
any other text, as much further on (`Cursor.shift`).  A file with a template in front is read as the
rest of it alone: the blocks are those of the rest, further on, and all that changes is that a template
of the rest is one too many (`Component.Behind`).  `Behind.readBlock` says so for a block, and
`Behind.readBlocks` for all that are left.
-/

namespace SingleFile

def Span.shift (k : Nat) (s : Span) : Span := ⟨k + s.start, k + s.stop⟩

namespace Cursor

def shift (k : Nat) (a : Cursor) : Cursor := ⟨k + a.offset, a.rest⟩

section Shift

variable (k : Nat) (a : Cursor)

@[simp] theorem rest_shift : (a.shift k).rest = a.rest := rfl

@[simp] theorem offset_shift : (a.shift k).offset = k + a.offset := rfl

@[simp] theorem atEnd_shift : (a.shift k).atEnd = a.atEnd := rfl

@[simp] theorem startsWith_shift (pattern : String) :
    (a.shift k).startsWith pattern = a.startsWith pattern := rfl

@[simp] theorem spanFrom_shift (start : Nat) :
    (a.shift k).spanFrom (k + start) = (a.spanFrom start).shift k := rfl

@[simp] theorem move_shift (taken rest : List Char) :
    (a.shift k).move taken rest = (a.move taken rest).shift k := by
  unfold move shift
  rw [Nat.add_assoc]

@[simp] theorem next_shift : (a.shift k).next = a.next.shift k := by
  unfold next
  rw [rest_shift]
  cases a.rest with
  | nil => rfl
  | cons c r => exact move_shift k a [c] r

@[simp] theorem takeWhile_shift (p : Char → Bool) :
    (a.shift k).takeWhile p = ((a.takeWhile p).1, (a.takeWhile p).2.shift k) :=
  congrArg (Prod.mk _) (move_shift k a _ _)

@[simp] theorem skipBlank_shift : (a.shift k).skipBlank = a.skipBlank.shift k := by
  unfold skipBlank
  rw [takeWhile_shift]

@[simp] theorem consume?_shift (pattern : String) :
    (a.shift k).consume? pattern = (a.consume? pattern).map (shift k) := by
  unfold consume?
  rw [Option.map_map, rest_shift]
  exact congrArg (Option.map · _) (funext fun rest => move_shift k a _ rest)

@[simp] theorem consumeFold?_shift (pattern : String) :
    (a.shift k).consumeFold? pattern = (a.consumeFold? pattern).map (shift k) := by
  unfold consumeFold?
  rw [Option.map_map, rest_shift]
  exact congrArg (Option.map · _) (funext fun rest => move_shift k a _ rest)

@[simp] theorem consume_shift (pattern : String) :
    (a.shift k).consume pattern = (a.consume pattern).shift k := by
  unfold consume
  rw [consume?_shift]
  cases a.consume? pattern <;> rfl

@[simp] theorem takeUntil_shift (pattern : String) :
    (a.shift k).takeUntil pattern = ((a.takeUntil pattern).1, (a.takeUntil pattern).2.shift k) :=
  congrArg (Prod.mk _) (move_shift k a _ _)

@[simp] theorem tagName?_shift :
    (a.shift k).tagName? = a.tagName?.map fun x => (x.1, x.2.shift k) := by
  unfold tagName?
  rw [Option.map_map, rest_shift]
  exact congrArg (Option.map · _) (funext fun x => congrArg (Prod.mk x.1) (move_shift k a _ _))

@[simp] theorem attributeName?_shift :
    (a.shift k).attributeName? = a.attributeName?.map fun x => (x.1, x.2.shift k) := by
  unfold attributeName?
  rw [Option.map_map, rest_shift]
  exact congrArg (Option.map · _) (funext fun x => congrArg (Prod.mk x.1) (move_shift k a _ _))

@[simp] theorem quoted?_shift :
    (a.shift k).quoted? = a.quoted?.map fun x => (x.1, x.2.1, x.2.2.shift k) := by
  unfold quoted?
  rw [rest_shift]
  cases a.rest with
  | nil => rfl
  | cons q r =>
    dsimp only
    by_cases hq : q = '"' ∨ q = '\''
    · rw [if_pos hq, if_pos hq]
      simp [shift, Nat.add_assoc]
    · rw [if_neg hq, if_neg hq]
      rfl

@[simp] theorem unquoted_shift : (a.shift k).unquoted = (a.unquoted.1, a.unquoted.2.shift k) :=
  takeWhile_shift k a _

@[simp] theorem comment?_shift :
    (a.shift k).comment? = a.comment?.map fun x => (x.1, x.2.shift k) := by
  unfold comment?
  rw [consume?_shift, Option.map_map, Option.map_map]
  refine congrArg (Option.map · _) (funext fun c => ?_)
  simp

@[simp] theorem content_shift (tag : List Char) :
    (a.shift k).content tag =
      ((a.content tag).1, (a.content tag).2.1, (a.content tag).2.2.shift k) :=
  congrArg (fun c => (_, _, c)) (move_shift k a _ _)

end Shift

end Cursor

namespace Component

open Cursor

section Shift

variable (k : Nat) (a : Cursor)

@[simp] theorem readAttributeValue_shift :
    readAttributeValue (a.shift k) =
      ((readAttributeValue a).1, (readAttributeValue a).2.shift k) := by
  unfold readAttributeValue
  simp only [skipBlank_shift, quoted?_shift]
  cases a.skipBlank.quoted? with
  | none => exact unquoted_shift k a.skipBlank
  | some x => rfl

@[simp] theorem readAttributes_shift (fuel : Nat) :
    readAttributes fuel (a.shift k) =
      ((readAttributes fuel a).1, (readAttributes fuel a).2.shift k) := by
  induction fuel generalizing a with
  | zero => rfl
  | succ fuel ih =>
    rw [readAttributes, readAttributes]
    simp only [skipBlank_shift, startsWith_shift, atEnd_shift, attributeName?_shift, next_shift]
    split
    · rfl
    · cases a.skipBlank.attributeName? with
      | none => exact ih _
      | some x =>
        obtain ⟨name, b⟩ := x
        simp only [Option.map_some, skipBlank_shift, consume?_shift]
        cases b.skipBlank.consume? "=" with
        | none => simp only [Option.map_none, ih]
        | some c => simp only [Option.map_some, readAttributeValue_shift, ih]

@[simp] theorem readTagEnd_shift :
    readTagEnd (a.shift k) = ((readTagEnd a).1, (readTagEnd a).2.shift k) := by
  unfold readTagEnd
  simp only [skipBlank_shift, consume?_shift]
  cases a.skipBlank.consume? "/>" with
  | none => exact congrArg (Prod.mk false) (consume_shift k a.skipBlank ">")
  | some c => rfl

@[simp] theorem readClosingTag_shift (tag : String) :
    readClosingTag (a.shift k) tag = (readClosingTag a tag).shift k := by
  unfold readClosingTag
  rw [consumeFold?_shift]
  cases a.consumeFold? ("</" ++ tag) with
  | none => rfl
  | some b => simp

end Shift

/-- How far a cursor has come bounds what is left. -/
theorem length_le_of_before {a b : Cursor} (h : a.Before b) : b.rest.length ≤ a.rest.length := by
  obtain ⟨s, hs, -⟩ := h
  rw [hs, List.length_append]
  omega

theorem length_next_lt {a : Cursor} (h : a.atEnd = false) : a.next.rest.length < a.rest.length := by
  unfold atEnd at h
  unfold next
  cases ha : a.rest with
  | nil =>
    rw [ha] at h
    cases h
  | cons c r =>
    show r.length < r.length + 1
    omega

theorem length_comment?_lt {a b : Cursor} {body : List Char} (h : a.comment? = some (body, b)) :
    b.rest.length < a.rest.length := by
  obtain ⟨c, hc, hb⟩ := Option.map_eq_some_iff.1 h
  obtain ⟨-, rfl⟩ := Prod.mk.inj hb
  have hmoved := congrArg List.length (moved_consume? hc).1
  have hbehind := length_le_of_before ((before_takeUntil c "-->").trans (before_consume _ "-->"))
  have hmark : "<!--".toList.length = 4 := rfl
  rw [List.length_append, hmark] at hmoved
  exact Nat.lt_of_le_of_lt hbehind (by omega)

/-- Fuel for each character that is left is enough. -/
theorem readBlocks_congr_fuel (lines : LineIndex) {n m : Nat} (c : Component) {a : Cursor}
    (hn : a.rest.length < n) (hm : a.rest.length < m) :
    readBlocks lines n c a = readBlocks lines m c a := by
  induction n generalizing m c a with
  | zero => omega
  | succ n ih =>
    obtain ⟨m, rfl⟩ : ∃ x, m = x + 1 := ⟨m - 1, by omega⟩
    have hblank := length_le_of_before (before_skipBlank a)
    rw [readBlocks, readBlocks]
    dsimp only
    cases hend : a.skipBlank.atEnd with
    | true => rfl
    | false =>
      have hnext := length_next_lt hend
      rw [if_neg Bool.false_ne_true, if_neg Bool.false_ne_true]
      cases hcomment : a.skipBlank.comment? with
      | some x =>
        have hlt := length_comment?_lt hcomment
        exact ih c (by omega) (by omega)
      | none =>
        have hblock := length_le_of_before (before_readBlock c lines a.skipBlank)
        dsimp only
        split
        · exact ih _ (by omega) (by omega)
        · exact ih c (by omega) (by omega)

end Component

/-! ### Blocks further on -/

def Block.shift (k : Nat) (b : Block) : Block :=
  { b with span := b.span.shift k, contentSpan := b.contentSpan.shift k }

/-- The map of a script leads to lines that are further down, in a file with another text. -/
def ScriptBlock.shift (k lines : Nat) (text : String) (b : ScriptBlock) : ScriptBlock :=
  { b with toBlock := { b.toBlock.shift k with map := b.map.map (·.relocate (· + lines) text) } }

def StyleBlock.shift (k : Nat) (b : StyleBlock) : StyleBlock :=
  { b with toBlock := b.toBlock.shift k }

def CustomBlock.shift (k : Nat) (b : CustomBlock) : CustomBlock :=
  { b with toBlock := b.toBlock.shift k }

def Problem.shift (k : Nat) (p : Problem) : Problem := { p with span := p.span.shift k }

namespace Component

open Cursor

/-- A component of a file is that of a part of it behind some front, but for the template, which the
front has.  If the part has a template too, there is one more problem. -/
structure Behind (front : List Char) (source whole : String) (template : TemplateBlock)
    (c d : Component) : Prop where
  text : whole.toList = front ++ source.toList
  part : c.source = source
  file : d.source = whole
  filename : d.filename = c.filename
  template : d.template = some template
  script : d.script = c.script.map (·.shift (byteLength front) (breaks front) whole)
  setupScript : d.setupScript = c.setupScript.map (·.shift (byteLength front) (breaks front) whole)
  styles : d.styles = c.styles.map (·.shift (byteLength front))
  customBlocks : d.customBlocks = c.customBlocks.map (·.shift (byteLength front))
  problems : match c.template with
    | none => d.problems = c.problems.map (·.shift (byteLength front))
    | some second => ∃ before after, c.problems = before ++ after ∧
      d.problems = before.map (·.shift (byteLength front)) ++
        ⟨.duplicate, "template", second.span.shift (byteLength front)⟩ ::
          after.map (·.shift (byteLength front))

namespace Behind

variable {front : List Char} {source whole : String} {template : TemplateBlock} {c d : Component}
  (h : Behind front source whole template c d)

include h

/-- A problem of the part is one of the file. -/
theorem problem (p : Problem) :
    Behind front source whole template { c with problems := c.problems ++ [p] }
      { d with problems := d.problems ++ [p.shift (byteLength front)] } := by
  refine ⟨h.text, h.part, h.file, h.filename, h.template, h.script, h.setupScript, h.styles,
    h.customBlocks, ?_⟩
  have hproblems := h.problems
  dsimp only
  cases hc : c.template with
  | none =>
    rw [hc] at hproblems
    rw [hproblems]
    simp
  | some second =>
    rw [hc] at hproblems
    obtain ⟨before, after, hbefore, hafter⟩ := hproblems
    refine ⟨before, after ++ [p], ?_, ?_⟩
    · rw [hbefore, List.append_assoc]
    · rw [hafter]
      simp

theorem problemIf (b : Bool) (p : Problem) :
    Behind front source whole template (if b then { c with problems := c.problems ++ [p] } else c)
      (if b then { d with problems := d.problems ++ [p.shift (byteLength front)] } else d) := by
  cases b with
  | true => exact h.problem p
  | false => exact h

theorem scriptOf_shift {block : Block} {pre post : List Char} (hsource : source.toList = pre ++ post)
    (hstart : block.contentSpan.start = byteLength pre) :
    d.scriptOf (.ofText whole) (block.shift (byteLength front)) =
      (c.scriptOf (.ofText source) block).shift (byteLength front) (breaks front) whole := by
  have hpart : ((LineIndex.ofText source).position block.contentSpan.start).line = breaks pre := by
    rw [hstart]
    exact LineIndex.line_position hsource
  have hline : ((LineIndex.ofText whole).position
      (byteLength front + block.contentSpan.start)).line = breaks pre + breaks front := by
    have htext : whole.toList = (front ++ pre) ++ post := by rw [h.text, hsource, List.append_assoc]
    have hposition := LineIndex.line_position htext
    rw [byteLength_append, breaks_append] at hposition
    rw [hstart, hposition, Nat.add_comm]
  have hmap : blockMap d.filename d.source ((LineIndex.ofText whole).position
        (byteLength front + block.contentSpan.start)).line block.content.toList =
      (blockMap c.filename c.source ((LineIndex.ofText source).position block.contentSpan.start).line
        block.content.toList).relocate (· + breaks front) whole := by
    rw [hline, hpart, h.filename, h.file]
    exact blockMap_relocate whole c.filename c.source (breaks pre) (breaks front) block.content.toList
  unfold scriptOf ScriptBlock.shift
  dsimp only [Block.shift, Span.shift]
  rw [hmap]
  rfl

/-- A template of the part is one too many in the file. -/
theorem addBlock_template (block : Block) :
    Behind front source whole template (c.addBlock (.ofText source) "template" block)
      (d.addBlock (.ofText whole) "template" (block.shift (byteLength front))) := by
  have hgiven : d.template.isSome = true := by
    rw [h.template]
    rfl
  unfold Component.addBlock
  dsimp only
  rw [if_pos rfl, if_pos rfl, if_pos hgiven]
  by_cases hc : c.template.isSome = true
  · rw [if_pos hc]
    exact h.problem ⟨.duplicate, "template", block.span⟩
  · rw [if_neg hc]
    have hproblems := h.problems
    rw [Option.not_isSome_iff_eq_none.1 hc] at hproblems
    refine ⟨h.text, h.part, h.file, h.filename, h.template, h.script, h.setupScript, h.styles,
      h.customBlocks, c.problems, [], (List.append_nil _).symm, ?_⟩
    dsimp only
    rw [hproblems]
    rfl

/-- A script of the part is one of the file, with or without setup. -/
theorem addBlock_script {block : Block} {pre post : List Char} (hsource : source.toList = pre ++ post)
    (hstart : block.contentSpan.start = byteLength pre) :
    Behind front source whole template (c.addBlock (.ofText source) "script" block)
      (d.addBlock (.ofText whole) "script" (block.shift (byteLength front))) := by
  have hadd := congrArg some (h.scriptOf_shift hsource hstart)
  have hsetup : d.setupScript.isSome = c.setupScript.isSome := by
    rw [h.setupScript, Option.isSome_map]
  have hplain : d.script.isSome = c.script.isSome := by
    rw [h.script, Option.isSome_map]
  have htag : ¬ "script" = "template" := by decide
  unfold Component.addBlock
  dsimp only
  rw [if_neg htag, if_neg htag, if_pos rfl, if_pos rfl, hsetup, hplain]
  show Behind _ _ _ _ (if Attribute.has "setup" block.attributes = true then _ else _)
    (if Attribute.has "setup" block.attributes = true then _ else _)
  by_cases hattribute : Attribute.has "setup" block.attributes = true
  · rw [if_pos hattribute, if_pos hattribute]
    by_cases hc : c.setupScript.isSome = true
    · rw [if_pos hc, if_pos hc]
      exact h.problem ⟨.duplicate, "script setup", block.span⟩
    · rw [if_neg hc, if_neg hc]
      exact ⟨h.text, h.part, h.file, h.filename, h.template, h.script, hadd, h.styles,
        h.customBlocks, h.problems⟩
  · rw [if_neg hattribute, if_neg hattribute]
    by_cases hc : c.script.isSome = true
    · rw [if_pos hc, if_pos hc]
      exact h.problem ⟨.duplicate, "script", block.span⟩
    · rw [if_neg hc, if_neg hc]
      exact ⟨h.text, h.part, h.file, h.filename, h.template, hadd, h.setupScript, h.styles,
        h.customBlocks, h.problems⟩

/-- What is added to the part is added to the file, but for a template. -/
theorem addBlock (tag : String) {block : Block} {pre post : List Char}
    (hsource : source.toList = pre ++ post) (hstart : block.contentSpan.start = byteLength pre) :
    Behind front source whole template (c.addBlock (.ofText source) tag block)
      (d.addBlock (.ofText whole) tag (block.shift (byteLength front))) := by
  by_cases htemplate : tag = "template"
  · rw [htemplate]
    exact h.addBlock_template block
  by_cases htag : tag = "script"
  · rw [htag]
    exact h.addBlock_script hsource hstart
  unfold Component.addBlock
  dsimp only
  rw [if_neg htemplate, if_neg htemplate, if_neg htag, if_neg htag]
  by_cases hstyle : tag = "style"
  · rw [if_pos hstyle, if_pos hstyle]
    refine ⟨h.text, h.part, h.file, h.filename, h.template, h.script, h.setupScript, ?_,
      h.customBlocks, h.problems⟩
    dsimp only
    rw [h.styles, List.map_append]
    rfl
  · rw [if_neg hstyle, if_neg hstyle]
    refine ⟨h.text, h.part, h.file, h.filename, h.template, h.script, h.setupScript, h.styles, ?_,
      h.problems⟩
    dsimp only
    rw [h.customBlocks, List.map_append]
    rfl

/-- A block of the part is read in the file as it is read in the part. -/
theorem readBlock {a : Cursor} (ha : (Cursor.ofText source).Before a) :
    Behind front source whole template (c.readBlock (.ofText source) a).1
        (d.readBlock (.ofText whole) (a.shift (byteLength front))).1 ∧
      (d.readBlock (.ofText whole) (a.shift (byteLength front))).2 =
        (c.readBlock (.ofText source) a).2.shift (byteLength front) := by
  have hstart := (ha.trans (before_next a)).trans (before_skipBlank a.next)
  unfold Component.readBlock
  simp only [next_shift, skipBlank_shift, offset_shift, tagName?_shift]
  generalize a.next.skipBlank = start at hstart ⊢
  cases htag : start.tagName? with
  | none => exact ⟨h, rfl⟩
  | some named =>
    obtain ⟨name, named⟩ := named
    have hattributes := before_readAttributes (named.rest.length + 1) named
    have hend := before_readTagEnd (readAttributes (named.rest.length + 1) named).2
    have hopened := ((hstart.trans (before_tagName? htag)).trans hattributes).trans hend
    simp only [Option.map_some, rest_shift, readAttributes_shift, readTagEnd_shift]
    generalize readTagEnd (readAttributes (named.rest.length + 1) named).2 = ended at hopened ⊢
    obtain ⟨closesItself, opened⟩ := ended
    obtain ⟨pre, hpre, hoffset⟩ := hopened
    replace hoffset : opened.offset = byteLength pre := hoffset.trans (Nat.zero_add _)
    cases closesItself with
    | true =>
      simp only [if_true]
      exact ⟨(h.problemIf _ ⟨.sourceWithContent, _, _⟩).addBlock _ hpre hoffset, trivial⟩
    | false =>
      simp only [Bool.false_eq_true, if_false, content_shift, spanFrom_shift, readClosingTag_shift]
      generalize opened.content (name.map lowerAscii) = read
      obtain ⟨content, found, closed⟩ := read
      refine ⟨?_, trivial⟩
      cases found with
      | true => exact (h.problemIf _ ⟨.sourceWithContent, _, _⟩).addBlock _ hpre hoffset
      | false =>
        have hunclosed := h.problem ⟨.unclosed, String.ofList (name.map lowerAscii),
          closed.spanFrom a.offset⟩
        exact (hunclosed.problemIf _ ⟨.sourceWithContent, _, _⟩).addBlock _ hpre hoffset

/-- So are all blocks that are left. -/
theorem readBlocks (fuel : Nat) {a : Cursor} (ha : (Cursor.ofText source).Before a) :
    Behind front source whole template (Component.readBlocks (.ofText source) fuel c a)
      (Component.readBlocks (.ofText whole) fuel d (a.shift (byteLength front))) := by
  induction fuel generalizing c d a with
  | zero => exact h
  | succ fuel ih =>
    have hblank := ha.trans (before_skipBlank a)
    rw [Component.readBlocks, Component.readBlocks]
    simp only [skipBlank_shift, atEnd_shift, comment?_shift, startsWith_shift, next_shift]
    split
    · exact h
    · cases hcomment : a.skipBlank.comment? with
      | some x => exact ih h (hblank.trans (before_comment? hcomment))
      | none =>
        simp only [Option.map_none]
        split
        · obtain ⟨hread, hnext⟩ := h.readBlock hblank
          rw [hnext]
          have hbehind := (before_next a.skipBlank).trans (before_readBlock c (.ofText source) a.skipBlank)
          exact ih hread (hblank.trans hbehind)
        · exact ih h (hblank.trans (before_next _))

end Behind

end Component

end SingleFile
