import SingleFile.Proofs.Component.Loops

/-!
# The spans of a component

Whatever the text of a file, the blocks that are found in it are parts of it (`Block.Cut`): content and
span are cut out between characters, the content lies in the span, and no two spans overlap
(`Component.Integrity`).  A script or style goes up to the first place where its closing tag stands, or
to the end of the file, and then there is a problem that says so.  Each block is read behind all that
has been found (`Component.Found.readBlock`), which a step of the reader keeps and hence the loop
over the blocks does (`Component.integrity_parse`).
-/

namespace SingleFile

open Cursor

/-! ### Closing tags of raw text -/

/-- A text starts with the closing tag of a block: its name in any ASCII case, where a name ends. -/
def ClosesHere (tag cs : List Char) : Prop :=
  ∃ name t, cs = '<' :: '/' :: (name ++ t) ∧ name.map lowerAscii = tag.map lowerAscii ∧
    ∀ c ∈ t.head?, c = '>' ∨ c = '/' ∨ c = ' ' ∨ c = '\t' ∨ c = '\n' ∨ c = '\r'

theorem endsName_iff {cs : List Char} : Markup.endsName cs = true ↔
    ∀ c ∈ cs.head?, c = '>' ∨ c = '/' ∨ c = ' ' ∨ c = '\t' ∨ c = '\n' ∨ c = '\r' := by
  cases cs with
  | nil => simp [Markup.endsName]
  | cons c r => simp [Markup.endsName, or_assoc]

theorem closesHere_iff {tag cs : List Char} :
    ClosesHere tag cs ↔ Markup.atTag ('<' :: '/' :: tag) cs = true := by
  rw [Markup.atTag_iff]
  constructor
  · rintro ⟨name, t, rfl, hname, ht⟩
    exact ⟨'<' :: '/' :: name, t, rfl, by simp [hname], endsName_iff.2 ht⟩
  · rintro ⟨m, t, rfl, hm, ht⟩
    obtain ⟨x, m, rfl, hx, hm⟩ := List.map_eq_cons_iff.1 hm
    obtain ⟨y, name, rfl, hy, hname⟩ := List.map_eq_cons_iff.1 hm
    obtain rfl := eq_of_lowerAscii_eq hx (by decide)
    obtain rfl := eq_of_lowerAscii_eq hy (by decide)
    exact ⟨name, t, rfl, hname, endsName_iff.1 ht⟩

/-- Raw text goes up to the first place where its closing tag stands, or to the end. -/
theorem Markup.contentFrom_raw {tag : List Char} (hraw : isRawText tag = true) (cs : List Char) :
    ∃ u v, cs = u ++ v ∧ contentFrom tag 0 .text cs = (u, !v.isEmpty, v) ∧
      (∀ x y, u = x ++ y → y ≠ [] → ¬ ClosesHere tag (y ++ v)) ∧ (ClosesHere tag v ∨ v = []) := by
  induction cs with
  | nil =>
    exact ⟨[], [], rfl, rfl, fun x y h hy => absurd (List.append_eq_nil_iff.1 h.symm).2 hy, .inr rfl⟩
  | cons c r ih =>
    cases hclosing : atTag ('<' :: '/' :: tag) (c :: r) with
    | true =>
      refine ⟨[], c :: r, rfl, by simp [contentFrom, hclosing], ?_, .inl (closesHere_iff.2 hclosing)⟩
      exact fun x y h hy => absurd (List.append_eq_nil_iff.1 h.symm).2 hy
    | false =>
      obtain ⟨u, v, rfl, hread, hfirst, hend⟩ := ih
      refine ⟨c :: u, v, rfl, by simp [contentFrom, hclosing, hraw, hread], fun x y h hy => ?_, hend⟩
      rcases List.cons_eq_append_iff.1 h with ⟨rfl, rfl⟩ | ⟨x, rfl, hu⟩
      · rw [closesHere_iff, List.cons_append, hclosing]
        exact Bool.false_ne_true
      · exact hfirst x y hu hy

/-! ### Blocks -/

/-- Raw text ends at the first place where its closing tag stands, or at the end of the file with a
problem that says so. -/
def Block.EndsRaw (b : Block) (problems : List Problem) (tag : String) (behind : Cursor) : Prop :=
  ∃ rest, behind.rest = b.content.toList ++ rest ∧
    (∀ x y, b.content.toList = x ++ y → y ≠ [] → ¬ ClosesHere tag.toList (y ++ rest)) ∧
    (ClosesHere tag.toList rest ∨ rest = [] ∧ ⟨.unclosed, tag, b.span⟩ ∈ problems)

structure Block.Cut (b : Block) (text : List Char) (problems : List Problem) (tag : String) : Prop where
  content : b.contentSpan.text? text = some b.content.toList
  span : ∃ whole, b.span.text? text = some whole
  inside : b.span.start < b.contentSpan.start ∧ b.contentSpan.start ≤ b.contentSpan.stop ∧
    b.contentSpan.stop ≤ b.span.stop ∧ b.span.stop ≤ byteLength text
  tag : ∃ start opening, start.StandsIn text ∧ start.offset = b.span.start ∧
    startTag? start = some opening ∧ opening.name = tag.toList ∧ opening.behind.StandsIn text ∧
    opening.behind.offset = b.contentSpan.start ∧ (opening.closesItself = true → b.content = "") ∧
    (opening.closesItself = false → tag = "script" ∨ tag = "style" →
      b.EndsRaw problems tag opening.behind)

/-- More problems, or another map, make no difference. -/
theorem Block.Cut.mono {b : Block} {text : List Char} {ps qs : List Problem} {tag : String}
    (h : b.Cut text ps tag) (hsub : ps ⊆ qs) (map : Option SourceMap) :
    Block.Cut { b with map } text qs tag := by
  obtain ⟨start, opening, hstart, hoffset, hopening, hname, hbehind, hcontent, hempty, hraw⟩ := h.tag
  refine ⟨h.content, h.span, h.inside, start, opening, hstart, hoffset, hopening, hname, hbehind,
    hcontent, hempty, fun hopen htag => ?_⟩
  obtain ⟨rest, hrest, hfirst, hend⟩ := hraw hopen htag
  exact ⟨rest, hrest, hfirst, hend.imp_right fun h => ⟨h.1, hsub h.2⟩⟩

namespace Component

/-- All blocks of a component with their tags. -/
def blocks (c : Component) : List (String × Block) :=
  (c.template.map fun b => ("template", b.toBlock)).toList ++
    ((c.script.map fun b => ("script", b.toBlock)).toList ++
      ((c.setupScript.map fun b => ("script", b.toBlock)).toList ++
        (c.styles.map (fun b => ("style", b.toBlock)) ++
          c.customBlocks.map fun b => (b.kind, b.toBlock))))

/-- The blocks of a component are parts of its file that do not overlap. -/
structure Integrity (text : List Char) (c : Component) : Prop where
  cut : ∀ x ∈ c.blocks, x.2.Cut text c.problems x.1
  apart : c.blocks.Pairwise fun x y =>
    x.2.span.stop ≤ y.2.span.start ∨ y.2.span.stop ≤ x.2.span.start
  styles : c.styles.Pairwise fun x y => x.span.stop ≤ y.span.start
  customBlocks : c.customBlocks.Pairwise fun x y => x.span.stop ≤ y.span.start

/-! ### All blocks -/

section Add

variable (c : Component) (lines : LineIndex) (tag : String) (block : Block)

/-- A component with a block more: it stands among the others, and is the last one of its kind. -/
structure Adds (d : Component) : Prop where
  blocks : ∃ map, d.blocks.Perm ((tag, { block with map }) :: c.blocks)
  problems : d.problems = c.problems
  styles : d.styles = c.styles ∨ ∃ s : StyleBlock, d.styles = c.styles ++ [s] ∧ s.span = block.span
  customBlocks : d.customBlocks = c.customBlocks ∨
    ∃ s : CustomBlock, d.customBlocks = c.customBlocks ++ [s] ∧ s.span = block.span

/-- A block is added unless it is one too many, and then there is one more problem. -/
theorem addBlock_adds : Adds c tag block (c.addBlock lines tag block) ∨
    ∃ p, c.addBlock lines tag block = { c with problems := c.problems ++ [p] } := by
  have hadds := c.addsBlock lines tag block
  generalize c.addBlock lines tag block = d at hadds ⊢
  cases hadds with
  | refused tag p => exact .inr ⟨p, rfl⟩
  | template free =>
    refine .inl ⟨⟨block.map, ?_⟩, rfl, .inl rfl, .inl rfl⟩
    simp only [blocks, free]
    exact .refl _
  | setup free =>
    refine .inl ⟨⟨(c.scriptOf lines block).map, ?_⟩, rfl, .inl rfl, .inl rfl⟩
    simp only [blocks, free]
    exact List.perm_middle.append_left _ |>.trans List.perm_middle
  | script free =>
    refine .inl ⟨⟨(c.scriptOf lines block).map, ?_⟩, rfl, .inl rfl, .inl rfl⟩
    simp only [blocks, free]
    exact List.perm_middle
  | style =>
    refine .inl ⟨⟨block.map, ?_⟩, rfl, .inr ⟨_, rfl, rfl⟩, .inl rfl⟩
    simp only [blocks, List.map_append, ← List.append_assoc]
    simp only [List.map_cons, List.map_nil, List.append_assoc _ [_]]
    exact List.perm_middle
  | custom tag =>
    refine .inl ⟨⟨block.map, ?_⟩, rfl, .inl rfl, .inr ⟨_, rfl, rfl⟩⟩
    simp only [blocks, List.map_append, ← List.append_assoc]
    exact List.perm_append_singleton _ _

end Add

/-! ### One block more -/

variable {text : List Char}

/-- What a cursor moves over is the part of the text between the two places. -/
theorem text?_of_moved {a b : Cursor} {taken : List Char} (h : a.StandsIn text)
    (hb : a.Moved taken b) : Span.text? ⟨a.offset, b.offset⟩ text = some taken := by
  obtain ⟨before, hbefore⟩ := h
  obtain ⟨htext, hoffset⟩ := splitBytes_eq_some_iff.1 hbefore
  exact Span.text?_eq_some (by rw [htext, hb.1, List.append_assoc]) hoffset hb.2.symm

theorem advances_startTag? {a : Cursor} {opening : StartTag} (h : startTag? a = some opening) :
    a.Advances opening.behind := by
  obtain ⟨⟨name, b⟩, hname, rfl⟩ := Option.map_eq_some_iff.1 h
  have hstart := (before_next a).trans (before_skipBlank a.next)
  exact (advances_of_before hstart (advances_tagName? hname)).before (before_tagEnd b)

theorem offset_le_of_before {a b : Cursor} (h : a.Before b) : a.offset ≤ b.offset := by
  obtain ⟨taken, -, hoffset⟩ := h
  omega

theorem offset_le_of_standsIn {a : Cursor} (h : a.StandsIn text) : a.offset ≤ byteLength text := by
  obtain ⟨before, hbefore⟩ := h
  obtain ⟨rfl, hoffset⟩ := splitBytes_eq_some_iff.1 hbefore
  rw [byteLength_append]
  omega

/-- The content of a script or style ends where its closing tag stands first, or where the file ends. -/
theorem endsRaw_of_content {b : Block} {problems : List Problem} {name : List Char} {a closed : Cursor}
    {found : Bool} (hraw : Markup.isRawText name = true)
    (hread : a.content name = (b.content.toList, found, closed))
    (hproblem : found = false → ⟨.unclosed, String.ofList name, b.span⟩ ∈ problems) :
    b.EndsRaw problems (String.ofList name) a := by
  obtain ⟨u, v, hcut, hcontent, hfirst, hend⟩ := Markup.contentFrom_raw hraw a.rest
  unfold Cursor.content Markup.content at hread
  rw [hcontent] at hread
  obtain ⟨hu, hfound, -⟩ : u = b.content.toList ∧ (!v.isEmpty) = found ∧ _ := by simpa using hread
  rw [hu] at hcut hfirst
  refine ⟨v, hcut, ?_, ?_⟩
  · rwa [String.toList_ofList]
  · rw [String.toList_ofList]
    exact hend.imp_right fun hv => ⟨hv, hproblem (by rw [← hfound, hv]; rfl)⟩

/-- The block at an opening bracket is a part of the file. -/
theorem cut_of_readsBlock {a closed next : Cursor} {opening : StartTag} {problems : List Problem}
    {block : Block} (earlier : List Problem) (ha : a.StandsIn text) (h : startTag? a = some opening)
    (hread : opening.ReadsBlock a problems block closed next) :
    block.Cut text (earlier ++ problems) (String.ofList opening.name) := by
  have hopened := advances_startTag? h
  have hbehind := ha.before hopened.1
  refine ⟨?_, ?_, ?_, ?_⟩
  · rw [hread.contentSpan]
    exact text?_of_moved hbehind hread.content
  · obtain ⟨taken, htaken⟩ := (hopened.1.trans ⟨_, hread.content⟩).trans hread.closing
    exact ⟨taken, by rw [hread.span, text?_of_moved ha htaken]⟩
  · rw [hread.span, hread.contentSpan]
    exact ⟨hopened.offset_lt, offset_le_of_before ⟨_, hread.content⟩, offset_le_of_before hread.closing,
      offset_le_of_standsIn ((hbehind.before ⟨_, hread.content⟩).before hread.closing)⟩
  · refine ⟨a, opening, ha, by rw [hread.span], h, (String.toList_ofList).symm, hbehind,
      by rw [hread.contentSpan], hread.empty, fun hopen htag => ?_⟩
    obtain ⟨found, hcontent, hproblem⟩ := hread.found hopen
    have hraw : Markup.isRawText opening.name = true := by
      rcases htag with htag | htag
      · rw [← String.toList_ofList (l := opening.name), htag]
        rfl
      · rw [← String.toList_ofList (l := opening.name), htag]
        rfl
    exact endsRaw_of_content hraw hcontent fun hnone => List.mem_append_right _ (hproblem hnone)

theorem style_mem_blocks {c : Component} {b : StyleBlock} (h : b ∈ c.styles) :
    ("style", b.toBlock) ∈ c.blocks := by
  have hmem : ("style", b.toBlock) ∈ c.styles.map fun b => ("style", b.toBlock) :=
    List.mem_map.2 ⟨b, h, rfl⟩
  simp only [blocks, List.mem_append, hmem, true_or, or_true]

theorem custom_mem_blocks {c : Component} {b : CustomBlock} (h : b ∈ c.customBlocks) :
    (b.kind, b.toBlock) ∈ c.blocks := by
  have hmem : (b.kind, b.toBlock) ∈ c.customBlocks.map fun b => (b.kind, b.toBlock) :=
    List.mem_map.2 ⟨b, h, rfl⟩
  simp only [blocks, List.mem_append, hmem, or_true]

/-- What has been found in a file up to a place. -/
structure Found (text : List Char) (c : Component) (a : Cursor) : Prop where
  place : a.StandsIn text
  integrity : Integrity text c
  behind : ∀ x ∈ c.blocks, x.2.span.stop ≤ a.offset

namespace Found

variable {c d : Component} {a b : Cursor} {tag : String} {block : Block}

theorem before (h : Found text c a) (hb : a.Before b) : Found text c b :=
  ⟨h.place.before hb, h.integrity, fun x hx => Nat.le_trans (h.behind x hx) (offset_le_of_before hb)⟩

theorem problems (h : Found text c a) (more : List Problem) :
    Found text { c with problems := c.problems ++ more } a where
  place := h.place
  integrity := ⟨fun x hx => (h.integrity.cut x hx).mono (List.subset_append_left _ _) x.2.map,
    h.integrity.apart, h.integrity.styles, h.integrity.customBlocks⟩
  behind := h.behind

/-- A block that starts where the reader has come to keeps the component in order. -/
theorem adds (h : Found text c a) (hcut : block.Cut text c.problems tag)
    (hspan : block.span = ⟨a.offset, b.offset⟩) (hb : a.Before b) (hadd : Adds c tag block d) :
    Found text d b := by
  obtain ⟨⟨map, hblocks⟩, hproblems, hstyles, hcustom⟩ := hadd
  have hstart : block.span.start = a.offset := by rw [hspan]
  have hstop : block.span.stop = b.offset := by rw [hspan]
  have hle := offset_le_of_before hb
  refine ⟨h.place.before hb, ⟨fun x hx => ?_, ?_, ?_, ?_⟩, fun x hx => ?_⟩
  · rw [hproblems]
    rcases List.mem_cons.1 (hblocks.mem_iff.1 hx) with rfl | hx
    · exact hcut.mono (List.Subset.refl _) map
    · exact h.integrity.cut x hx
  · refine (hblocks.pairwise_iff fun h => h.symm).2
      (List.pairwise_cons.2 ⟨fun x hx => ?_, h.integrity.apart⟩)
    exact .inr (Nat.le_trans (h.behind x hx) (Nat.le_of_eq hstart.symm))
  · rcases hstyles with heq | ⟨s, heq, hs⟩
    · rw [heq]
      exact h.integrity.styles
    · rw [heq]
      refine List.pairwise_append.2
        ⟨h.integrity.styles, List.pairwise_singleton _ _, fun x hx y hy => ?_⟩
      rw [List.mem_singleton.1 hy, hs, hstart]
      exact h.behind _ (style_mem_blocks hx)
  · rcases hcustom with heq | ⟨s, heq, hs⟩
    · rw [heq]
      exact h.integrity.customBlocks
    · rw [heq]
      refine List.pairwise_append.2
        ⟨h.integrity.customBlocks, List.pairwise_singleton _ _, fun x hx y hy => ?_⟩
      rw [List.mem_singleton.1 hy, hs, hstart]
      exact h.behind _ (custom_mem_blocks hx)
  · rcases List.mem_cons.1 (hblocks.mem_iff.1 hx) with rfl | hx
    · exact Nat.le_of_eq hstop
    · exact Nat.le_trans (h.behind x hx) hle

/-- Reading a block goes on from a component in order to one. -/
theorem readBlock (h : Found text c a) (lines : LineIndex) :
    Found text (c.readBlock lines a).1 (c.readBlock lines a).2 := by
  have hnext := (before_next a).trans (before_readBlock c lines a)
  rcases readBlock_cases c lines a with heq | ⟨opening, problems, block, closed, next, htag, heq, hread⟩
  · rw [heq] at hnext ⊢
    exact h.before hnext
  · rw [heq] at hnext ⊢
    have hnoted := h.problems problems
    rcases addBlock_adds { c with problems := c.problems ++ problems } lines
      (String.ofList opening.name) block with hadd | ⟨p, hadd⟩
    · exact hnoted.adds (cut_of_readsBlock c.problems h.place htag hread) hread.span hnext hadd
    · rw [hadd]
      exact (hnoted.problems [p]).before hnext

/-- So does a step of the reader. -/
theorem blockStep {lines : LineIndex} {next : Component × Cursor} (h : Found text c a)
    (hstep : Component.blockStep lines (c, a) = some next) : Found text next.1 next.2 := by
  rcases blockStep_cases lines c a with ⟨hnone, -⟩ | ⟨d, b, hsome, hmove, hread, -⟩
  · rw [hnone] at hstep
    cases hstep
  · obtain rfl := Option.some.inj (hsome.symm.trans hstep)
    rcases hread with rfl | ⟨start, hstart, heq⟩
    · exact h.before hmove.1
    · rw [heq]
      exact (h.before hstart).readBlock lines

end Found

/-- **Reading a file**: whatever its text is, the reader comes to an end, never leaves the text, and the
blocks that it finds are parts of the text that do not overlap. -/
theorem integrity_parse (source filename : String) :
    ReadsWithin source.toList ∧
    (∃ last, Loop.Ends source.toList (·.2) (blockStep (.ofText source))
      ({ filename, source }, .ofText source) (parse source filename, last)) ∧
    Integrity source.toList (parse source filename) := by
  obtain ⟨last, hends⟩ := ends_blocks source filename
  refine ⟨readsWithin _, ⟨last, hends⟩, ?_⟩
  obtain ⟨states, hloop, -⟩ := hends
  have hstart : Found source.toList { filename, source } (.ofText source) :=
    ⟨standsIn_iff.2 (.refl _), ⟨by simp [blocks], by simp [blocks], by simp, by simp⟩, by simp [blocks]⟩
  have hfound := hloop.invariant (P := fun s => Found source.toList s.1 s.2)
    (fun s t hs hstep => hs.blockStep hstep) hstart
  exact (hfound _ hloop.last_mem).integrity

end Component

end SingleFile
