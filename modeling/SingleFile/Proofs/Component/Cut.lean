import SingleFile.Component.Reader
import SingleFile.Proofs.Text.Cursor
import SingleFile.Proofs.Text.LineIndex

/-!
# Where blocks are cut out of their file

Every reader of markup moves its cursor over the text (`before_readAttributes`, `moved_content`), and
so does the reading of a whole block.  What that can do is said once (`Component.readBlock_cases`), and
so is what adding the block to its component can do (`Component.addsBlock`).  So each block that is added
stands in the file at the place that its span says (`Component.parse_induction`): a script, whose map
starts on the line of that place (`Component.reads_parse`), and a template
(`Component.standsIn_template`).
-/

namespace SingleFile

/-- The content of a block stands in a file between two texts, where its span says. -/
structure Block.StandsIn (b : Block) (source : String) (pre post : List Char) : Prop where
  text : source.toList = pre ++ b.content.toList ++ post
  span : b.contentSpan = ⟨byteLength pre, byteLength (pre ++ b.content.toList)⟩

/-- The scripts of a component stand in its file, and their maps start on the lines of their
contents. -/
structure Component.Located (c : Component) : Prop where
  script : ∀ b ∈ c.script, ∃ pre post, b.StandsIn c.source pre post ∧
    b.map = some (blockMap c.filename c.source (breaks pre) b.content.toList)
  setup : ∀ b ∈ c.setupScript, ∃ pre post, b.StandsIn c.source pre post ∧
    b.map = some (blockMap c.filename c.source (breaks pre) b.content.toList)

/-! ### Readers of markup -/

namespace Markup

theorem exists_eq_append_spanQuoted (quote : Char) (cs : List Char) :
    ∃ s, cs = s ++ (spanQuoted quote cs).2 := by
  fun_induction spanQuoted quote cs with
  | case1 => exact ⟨[], rfl⟩
  | case2 c r a b hab ih =>
    obtain ⟨s, hs⟩ := ih
    rw [hab] at hs
    exact ⟨'\\' :: c :: s, by rw [hs]; rfl⟩
  | case3 r => exact ⟨[quote], rfl⟩
  | case4 c r _ _ a b hab ih =>
    obtain ⟨s, hs⟩ := ih
    rw [hab] at hs
    exact ⟨c :: s, by rw [hs]; rfl⟩

/-- The content of a block and what is left of the text make up the text. -/
theorem contentFrom_append (tag : List Char) (depth : Nat) (place : Place) (cs : List Char) :
    (contentFrom tag depth place cs).1 ++ (contentFrom tag depth place cs).2.2 = cs := by
  fun_induction contentFrom tag depth place cs <;> simp_all

/-- The closing tag has been found unless the content goes up to the end. -/
theorem found_contentFrom (tag : List Char) (depth : Nat) (place : Place) (cs : List Char) :
    (contentFrom tag depth place cs).2.1 = !(contentFrom tag depth place cs).2.2.isEmpty := by
  fun_induction contentFrom tag depth place cs <;> simp_all

theorem append_of_name? {first next : Char → Bool} {cs a b : List Char}
    (h : name? first next cs = some (a, b)) : cs = a ++ b := by
  cases cs with
  | nil => simp [name?] at h
  | cons c r =>
    rw [name?] at h
    split at h
    · obtain ⟨rfl, rfl⟩ : c :: r.takeWhile next = a ∧ r.dropWhile next = b := by simpa using h
      rw [List.cons_append, List.takeWhile_append_dropWhile]
    · simp at h

end Markup

namespace Cursor

variable {a b : Cursor}

theorem before_tagName? {name : List Char} (h : a.tagName? = some (name, b)) : a.Before b := by
  obtain ⟨⟨x, y⟩, hn, heq⟩ := Option.map_eq_some_iff.1 h
  obtain ⟨rfl, rfl⟩ : x = name ∧ a.move x y = b := by simpa using heq
  exact ⟨x, moved_move (Markup.append_of_name? hn)⟩

theorem before_attributeName? {name : List Char} (h : a.attributeName? = some (name, b)) :
    a.Before b := by
  obtain ⟨⟨x, y⟩, hn, heq⟩ := Option.map_eq_some_iff.1 h
  obtain ⟨rfl, rfl⟩ : x = name ∧ a.move x y = b := by simpa using heq
  exact ⟨x, moved_move (Markup.append_of_name? hn)⟩

theorem before_quoted? {value : List Char} {q : Char} (h : a.quoted? = some (value, q, b)) :
    a.Before b := by
  unfold quoted? at h
  split at h
  · next c r hr =>
    split at h
    · obtain ⟨s, hs⟩ := Markup.exists_eq_append_spanQuoted c r
      obtain ⟨-, -, rfl⟩ := by simpa using h
      refine ⟨c :: s, ?_, ?_⟩
      · rw [hr, List.cons_append, ← hs]
      · have hlength := congrArg byteLength hs
        rw [byteLength_append] at hlength
        show a.offset + (byteLength a.rest - _) = _
        rw [hr, byteLength_cons, byteLength_cons, hlength]
        omega
    · simp at h
  · simp at h

theorem before_comment? {body : List Char} (h : a.comment? = some (body, b)) : a.Before b := by
  obtain ⟨c, hc, heq⟩ := Option.map_eq_some_iff.1 h
  obtain ⟨-, rfl⟩ := by simpa using heq
  exact (Before.trans ⟨_, moved_consume? hc⟩ (before_takeUntil c "-->")).trans (before_consume _ _)

/-- A cursor moves over the content that it reads. -/
theorem moved_content (a : Cursor) (tag : List Char) : a.Moved (a.content tag).1 (a.content tag).2.2 :=
  moved_move (Markup.contentFrom_append tag 0 .text a.rest).symm

end Cursor

/-- What is read of a block before its content. -/
structure StartTag where
  name : List Char
  attributes : List Attribute
  closesItself : Bool
  behind : Cursor

/-- The start tag at an opening bracket, if there is one. -/
def startTag? (a : Cursor) : Option StartTag :=
  a.next.skipBlank.tagName?.map fun (name, b) =>
    let (attributes, b) := Component.readAttributes (b.rest.length + 1) b
    let (closesItself, b) := Component.readTagEnd b
    ⟨name.map lowerAscii, attributes, closesItself, b⟩

/-- A block is read at a place `a`: its content goes from behind the start tag up to `closed`, and the
reader goes on at `next`, having noted some problems. -/
structure StartTag.ReadsBlock (opening : StartTag) (a : Cursor) (problems : List Problem)
    (block : Block) (closed next : Cursor) : Prop where
  content : opening.behind.Moved block.content.toList closed
  closing : closed.Before next
  contentSpan : block.contentSpan = ⟨opening.behind.offset, closed.offset⟩
  span : block.span = ⟨a.offset, next.offset⟩
  lang : block.lang = Attribute.value? "lang" block.attributes
  empty : opening.closesItself = true → block.content = ""
  found : opening.closesItself = false → ∃ found,
    opening.behind.content opening.name = (block.content.toList, found, closed) ∧
      (found = false → ⟨.unclosed, String.ofList opening.name, block.span⟩ ∈ problems)

namespace Component

open Cursor

theorem before_readAttributeValue (a : Cursor) : a.Before (readAttributeValue a).2 := by
  unfold readAttributeValue
  refine (before_skipBlank a).trans ?_
  simp only []
  split
  · next h => exact before_quoted? h
  · exact before_takeWhile _ _

theorem before_readAttributes (fuel : Nat) (a : Cursor) : a.Before (readAttributes fuel a).2 := by
  induction fuel generalizing a with
  | zero => exact .refl a
  | succ fuel ih =>
    rw [readAttributes]
    refine (before_skipBlank a).trans ?_
    simp only []
    split
    · exact .refl _
    split
    · exact (before_next _).trans (ih _)
    next name b hname =>
    refine (before_attributeName? hname).trans ((before_skipBlank b).trans ?_)
    split
    · next c hc =>
      exact (Before.trans ⟨_, moved_consume? hc⟩ (before_readAttributeValue c)).trans (ih _)
    · exact ih _

theorem before_readTagEnd (a : Cursor) : a.Before (readTagEnd a).2 := by
  unfold readTagEnd
  refine (before_skipBlank a).trans ?_
  simp only []
  split
  · next h => exact ⟨_, moved_consume? h⟩
  · exact before_consume _ _

theorem before_tagEnd (a : Cursor) :
    a.Before (readTagEnd (readAttributes (a.rest.length + 1) a).2).2 :=
  (before_readAttributes _ a).trans (before_readTagEnd _)

theorem before_startTag? {a : Cursor} {opening : StartTag} (h : startTag? a = some opening) :
    a.next.Before opening.behind := by
  obtain ⟨⟨name, b⟩, hname, rfl⟩ := Option.map_eq_some_iff.1 h
  exact ((before_skipBlank a.next).trans (before_tagName? hname)).trans (before_tagEnd b)

theorem before_readClosingTag (a : Cursor) (tag : String) : a.Before (readClosingTag a tag) := by
  unfold readClosingTag
  split
  · next b h => exact ((before_consumeFold? h).trans (before_takeUntil b ">")).trans (before_consume _ _)
  · exact .refl a

/-! ### Blocks -/

def scriptOf (c : Component) (lines : LineIndex) (block : Block) : ScriptBlock :=
  { block with
    map := some (blockMap c.filename c.source (lines.position block.contentSpan.start).line
      block.content.toList)
    setup := Attribute.has "setup" block.attributes }

/-- The style that a block becomes. -/
def styleOf (block : Block) : StyleBlock :=
  { block with
    isScoped := Attribute.has "scoped" block.attributes
    moduleName := if Attribute.has "module" block.attributes then
        some (((Attribute.value? "module" block.attributes).filter (!·.isEmpty)).getD "$style")
      else none }

/-- A block is added to a component: it is one too many, and a problem is noted, or it gets a place among
the blocks with its tag. -/
inductive AddsBlock (c : Component) (lines : LineIndex) (block : Block) : String → Component → Prop
  | refused (tag : String) (p : Problem) :
      AddsBlock c lines block tag { c with problems := c.problems ++ [p] }
  | template (free : c.template = none) : AddsBlock c lines block "template" { c with
      template := some { block with functional := Attribute.has "functional" block.attributes } }
  | setup (free : c.setupScript = none) :
      AddsBlock c lines block "script" { c with setupScript := some (c.scriptOf lines block) }
  | script (free : c.script = none) :
      AddsBlock c lines block "script" { c with script := some (c.scriptOf lines block) }
  | style : AddsBlock c lines block "style" { c with styles := c.styles ++ [styleOf block] }
  | custom (tag : String) :
      AddsBlock c lines block tag
        { c with customBlocks := c.customBlocks ++ [{ block with kind := tag }] }

/-- **What adding a block can do.** -/
theorem addsBlock (c : Component) (lines : LineIndex) (tag : String) (block : Block) :
    AddsBlock c lines block tag (c.addBlock lines tag block) := by
  have hfree {α : Type} {slot : Option α} (h : ¬ slot.isSome = true) : slot = none :=
    Option.not_isSome_iff_eq_none.1 h
  unfold addBlock
  extract_lets problem map script name
  split
  · next htag =>
    subst htag
    split
    · exact .refused _ _
    · next h => exact .template (hfree h)
  split
  · next htag =>
    subst htag
    split
    · split
      · exact .refused _ _
      · next h => exact .setup (hfree h)
    · split
      · exact .refused _ _
      · next h => exact .script (hfree h)
  split
  · next htag =>
    subst htag
    exact .style
  · exact .custom tag

/-- Only scripts are put among the scripts, and they get the map of their place. -/
theorem located_addBlock {c : Component} (h : c.Located) (tag : String) {block : Block}
    {pre post : List Char} (hblock : block.StandsIn c.source pre post) :
    (c.addBlock (.ofText c.source) tag block).Located := by
  have hline : ((LineIndex.ofText c.source).position block.contentSpan.start).line = breaks pre := by
    rw [hblock.span]
    exact LineIndex.line_position (by rw [hblock.text, List.append_assoc])
  have hscript : ∀ b ∈ some (c.scriptOf (.ofText c.source) block), ∃ pre post,
      b.StandsIn c.source pre post ∧
        b.map = some (blockMap c.filename c.source (breaks pre) b.content.toList) := by
    rintro b ⟨⟩
    refine ⟨pre, post, ⟨hblock.text, hblock.span⟩, ?_⟩
    rw [← hline]
    rfl
  have hadds := c.addsBlock (.ofText c.source) tag block
  generalize c.addBlock (.ofText c.source) tag block = d at hadds ⊢
  cases hadds with
  | setup => exact ⟨h.script, hscript⟩
  | script => exact ⟨hscript, h.setup⟩
  | _ => exact ⟨h.script, h.setup⟩

/-- At the end of a text there is no closing tag. -/
theorem readClosingTag_of_atEnd {a : Cursor} (h : a.rest = []) (tag : String) :
    readClosingTag a tag = a := by
  have hnone : a.consumeFold? ("</" ++ tag) = none := by
    rw [consumeFold?, Option.map_eq_none_iff, h, Option.eq_none_iff_forall_not_mem]
    intro rest hrest
    obtain ⟨m, hm, hmap⟩ := stripPrefixFold?_eq_some_iff.1 hrest
    rw [(List.append_eq_nil_iff.1 hm.symm).1, String.toList_append] at hmap
    cases hmap
  rw [readClosingTag, hnone]

theorem problems_if (c : Component) (b : Bool) (p : Problem) :
    (if b then { c with problems := c.problems ++ [p] } else c) =
      { c with problems := c.problems ++ if b then [p] else [] } := by
  cases b with
  | true => rfl
  | false =>
    show c = { c with problems := c.problems ++ [] }
    rw [List.append_nil]

theorem problems_unless (c : Component) (b : Bool) (p : Problem) :
    (if b then c else { c with problems := c.problems ++ [p] }) =
      { c with problems := c.problems ++ if b then [] else [p] } := by
  cases b with
  | true => exact problems_if c false p
  | false => rfl

/-- Where there is a start tag, a block is read and added. -/
theorem exists_readBlock (c : Component) (lines : LineIndex) {a : Cursor} {opening : StartTag}
    (h : startTag? a = some opening) : ∃ problems block closed next,
      c.readBlock lines a = ({ c with problems := c.problems ++ problems }.addBlock lines
        (String.ofList opening.name) block, next) ∧
      opening.ReadsBlock a problems block closed next := by
  obtain ⟨⟨name, b⟩, hname, rfl⟩ := Option.map_eq_some_iff.1 h
  unfold readBlock
  dsimp only
  rw [hname]
  dsimp only
  generalize readAttributes (b.rest.length + 1) b = read
  obtain ⟨attributes, b⟩ := read
  dsimp only
  generalize readTagEnd b = ended
  obtain ⟨closesItself, opened⟩ := ended
  dsimp only
  cases closesItself with
  | true =>
    simp only [if_true, problems_if]
    refine ⟨_, _, opened, opened, rfl, ?_, .refl _, rfl, rfl, rfl, fun _ => rfl, nofun⟩
    rw [String.toList_ofList]
    exact .refl opened
  | false =>
    have hmoved := moved_content opened (name.map lowerAscii)
    have hend := Markup.found_contentFrom (name.map lowerAscii) 0 .text opened.rest
    have hread : opened.content (name.map lowerAscii) = ((opened.content (name.map lowerAscii)).1,
        !(opened.content (name.map lowerAscii)).2.2.rest.isEmpty,
        (opened.content (name.map lowerAscii)).2.2) :=
      congrArg (fun found => (_, found, _)) hend
    generalize hcontent : opened.content (name.map lowerAscii) = read at hmoved hread ⊢
    obtain ⟨content, found, closed⟩ := read
    obtain rfl : found = !closed.rest.isEmpty := congrArg (·.2.1) hread
    have hnext := before_readClosingTag closed (String.ofList (name.map lowerAscii))
    simp only [Bool.false_eq_true, if_false]
    rw [problems_if, problems_unless, List.append_assoc]
    refine ⟨_, _, closed, _, rfl, ?_, hnext, rfl, rfl, rfl, nofun,
      fun _ => ⟨!closed.rest.isEmpty, ?_, fun hunclosed => ?_⟩⟩
    · rwa [String.toList_ofList]
    · rw [String.toList_ofList]
      exact hcontent
    · have hrest : closed.rest = [] := by simpa using hunclosed
      rw [readClosingTag_of_atEnd hrest, hunclosed]
      exact List.mem_append_left _ List.mem_cons_self

/-- **What reading a block can do**: nothing but to go on behind the bracket, or to add a block with the
start tag that stands there. -/
theorem readBlock_cases (c : Component) (lines : LineIndex) (a : Cursor) :
    c.readBlock lines a = (c, a.next.skipBlank) ∨ ∃ opening problems block closed next,
      startTag? a = some opening ∧
      c.readBlock lines a = ({ c with problems := c.problems ++ problems }.addBlock lines
        (String.ofList opening.name) block, next) ∧
      opening.ReadsBlock a problems block closed next := by
  cases h : startTag? a with
  | none =>
    have hname : a.next.skipBlank.tagName? = none := Option.map_eq_none_iff.1 h
    refine .inl ?_
    unfold readBlock
    dsimp only
    rw [hname]
  | some opening =>
    obtain ⟨problems, block, closed, next, hread, hblock⟩ := exists_readBlock c lines h
    exact .inr ⟨opening, problems, block, closed, next, rfl, hread, hblock⟩

/-- Reading a block goes on behind the bracket that starts it. -/
theorem before_readBlock (c : Component) (lines : LineIndex) (a : Cursor) :
    a.next.Before (c.readBlock lines a).2 := by
  rcases readBlock_cases c lines a with heq | ⟨opening, problems, block, closed, next, htag, heq, h⟩
  · rw [heq]
    exact before_skipBlank a.next
  · rw [heq]
    exact ((before_startTag? htag).trans ⟨_, h.content⟩).trans h.closing

/-! ### Files -/

section Induction

variable {P : Component → Prop} {source : String}
  (hproblems : ∀ c problems, P c → P { c with problems })
  (hadd : ∀ c tag block pre post, P c → block.StandsIn source pre post →
    P (c.addBlock (.ofText source) tag block))

include hproblems hadd

theorem readBlock_induction {c : Component} (h : P c) {cursor : Cursor}
    (hcursor : (Cursor.ofText source).Before cursor) :
    P (c.readBlock (.ofText source) cursor).1 ∧
      (Cursor.ofText source).Before (c.readBlock (.ofText source) cursor).2 := by
  refine ⟨?_, (hcursor.trans (before_next cursor)).trans (before_readBlock c _ cursor)⟩
  rcases readBlock_cases c (.ofText source) cursor with
    heq | ⟨opening, problems, block, closed, next, htag, heq, hread⟩
  · rw [heq]
    exact h
  · rw [heq]
    obtain ⟨pre, hpre⟩ := (hcursor.trans (before_next cursor)).trans (before_startTag? htag)
    have hblock : block.StandsIn source pre closed.rest := by
      have hall := hpre.trans hread.content
      refine ⟨hall.1, ?_⟩
      rw [hread.contentSpan, hpre.2, hall.2]
      simp [Cursor.ofText]
    exact hadd _ _ block pre closed.rest (hproblems c _ h) hblock

theorem readBlocks_induction (fuel : Nat) {c : Component} (h : P c) {cursor : Cursor}
    (hcursor : (Cursor.ofText source).Before cursor) :
    P (readBlocks (.ofText source) fuel c cursor) := by
  induction fuel generalizing c cursor with
  | zero => exact h
  | succ fuel ih =>
    have hblank := hcursor.trans (before_skipBlank cursor)
    rw [readBlocks]
    simp only []
    split
    · exact h
    split
    · next hcomment => exact ih h (hblank.trans (before_comment? hcomment))
    split
    · obtain ⟨hkept, hnext⟩ := readBlock_induction hproblems hadd h hblank
      exact ih hkept hnext
    · exact ih h (hblank.trans (before_next _))

/-- What holds before a file is read, and is kept where problems are noted and where a block that
stands in the file is added, holds of its component. -/
theorem parse_induction (filename : String) (hempty : P { filename, source }) :
    P (parse source filename) :=
  readBlocks_induction hproblems hadd _ hempty (.refl _)

end Induction

structure Reads (filename source : String) (c : Component) : Prop where
  filename : c.filename = filename
  source : c.source = source
  located : c.Located

/-- **Scripts are parts of their file**, and their maps start on the lines of their contents. -/
theorem reads_parse (source filename : String) : Reads filename source (parse source filename) := by
  refine parse_induction (P := Reads filename source) ?_ ?_ filename ⟨rfl, rfl, by simp, by simp⟩
  · exact fun c problems h => ⟨h.filename, h.source, h.located.script, h.located.setup⟩
  · intro c tag block pre post h hblock
    obtain rfl := h.source
    have hlocated := located_addBlock h.located tag hblock
    have hadds := c.addsBlock (.ofText c.source) tag block
    generalize c.addBlock (.ofText c.source) tag block = d at hadds hlocated ⊢
    cases hadds <;> exact ⟨h.filename, rfl, hlocated⟩

/-- The template is a part of its file. -/
theorem standsIn_template {source filename : String} {block : TemplateBlock}
    (h : (parse source filename).template = some block) :
    ∃ pre post, block.StandsIn source pre post := by
  refine parse_induction (P := fun c => ∀ b ∈ c.template, ∃ pre post, b.StandsIn source pre post)
    ?_ ?_ filename (by simp) block h
  · exact fun c problems h => h
  · intro c tag block pre post h hblock
    have hadds := c.addsBlock (.ofText source) tag block
    generalize c.addBlock (.ofText source) tag block = d at hadds ⊢
    cases hadds with
    | template =>
      rintro b ⟨⟩
      exact ⟨pre, post, hblock.text, hblock.span⟩
    | _ => exact h

end Component

end SingleFile
