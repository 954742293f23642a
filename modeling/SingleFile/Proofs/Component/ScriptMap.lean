import SingleFile.Proofs.Component.BlockMap
import SingleFile.Proofs.Component.Cut

/-!
# Where the map of a script leads

The map of a script answers for each character of its content that is not white space: with the line
on which the character stands in the file, and below the first line with its column too.  It says
nothing of what stands before the first such character of a line, nor of lines that are blank or hold
a bare comment mark (`LeadsBack`, `Component.leadsBack_map`).
-/

namespace SingleFile

/-- A line with a comment mark at its start and nothing behind it. -/
def IsBareComment (line : List Char) : Prop := ∃ t, line = '/' :: '/' :: t ∧ allBlank t = true

/-- The column of the first character of a line that is not white space. -/
def inkStart (line : List Char) : Nat := units (line.takeWhile isBlank)

/-- A map leads from the characters of a content to where they stand in a file that has the content
behind `pre`, and is silent elsewhere. -/
structure LeadsBack (filename : String) (pre content : List Char) (map : SourceMap) : Prop where
  ink : ∀ a c b, content = a ++ c :: b → isBlank c = false → ¬ IsBareComment (lineAround a c b) →
    ∃ o, map.original? (Position.origin.after a) = some o ∧ o.source = filename ∧ o.name = none ∧
      o.position = ⟨breaks pre + (Position.origin.after a).line, (Position.origin.after a).column⟩ ∧
      o.position.line = (Position.origin.after (pre ++ a)).line ∧
      (1 ≤ (Position.origin.after a).line → o.position = Position.origin.after (pre ++ a))
  silent : ∀ p : Position, (∀ line ∈ (splitAt '\n' content)[p.line]?,
    allBlank line = true ∨ IsBareComment line ∨ p.column < inkStart line) → map.original? p = none

/-! ### Lines without mappings -/

theorem isBareLine_iff {line : List Char} :
    isBareLine line = true ↔ allBlank line = true ∨ IsBareComment line := by
  unfold isBareLine IsBareComment
  cases hmark : stripPrefix? ['/', '/'] line with
  | some t =>
    obtain rfl := stripPrefix?_eq_some_iff.1 hmark
    have hslash : allBlank ('/' :: '/' :: t) = false := rfl
    simp [hslash]
  | none =>
    have hno (t : List Char) : line ≠ '/' :: '/' :: t := by
      rintro rfl
      cases hmark
    simp [hno]

/-- Nothing but white space stands before the first column. -/
theorem inkStart_le {x y : List Char} {c : Char} (hc : isBlank c = false) :
    inkStart (x ++ c :: y) ≤ units x := by
  unfold inkStart
  induction x with
  | nil => simp [hc]
  | cons d x ih =>
    rw [List.cons_append, List.takeWhile_cons]
    split
    · rw [units, units]
      omega
    · exact Nat.zero_le _

section BlockMap

variable {filename source : String} {start : Nat} {content : List Char}

/-- The map is silent where nothing is mapped on the line so far. -/
theorem original?_blockMap_eq_none {p : Position}
    (h : ∀ line ∈ (splitAt '\n' content)[p.line]?, isBareLine line = true ∨ p.column < inkStart line) :
    (blockMap filename source start content).original? p = none := by
  rw [original?_eq_resolve fun m hm => range_blockMap hm]
  cases ho : resolve (blockMap filename source start content).entries p with
  | none => rfl
  | some o =>
    obtain ⟨e, he, hline, hle, -⟩ := exists_of_resolve ho
    obtain ⟨a, c, b, rfl, hc, hbare, rfl⟩ := mem_entries_blockMap.1 he
    have hfound := getElem?_splitAt_breaks (a := a) (b := b) (ne_break_of_ink hc)
    rw [blockEntry, after_origin] at hline hle
    dsimp only at hline
    rw [hline] at hfound
    rcases h _ hfound with hb | hcolumn
    · rw [lineAround] at hbare
      rw [hbare] at hb
      cases hb
    · have hfirst := inkStart_le (x := lastLine a) (y := b.takeWhile (· ≠ '\n')) hc
      rw [Position.le_iff] at hle
      dsimp only at hle
      omega

/-- Lines are counted from where the content starts, and from the second one on columns are the
same in the file. -/
theorem after_append_of_line (pre a : List Char) :
    (Position.origin.after (pre ++ a)).line = breaks pre + (Position.origin.after a).line ∧
      (1 ≤ (Position.origin.after a).line → Position.origin.after (pre ++ a) =
        ⟨breaks pre + (Position.origin.after a).line, (Position.origin.after a).column⟩) := by
  rw [Position.after_append, Position.after_eq_offsetBy (Position.origin.after pre),
    Position.line_offsetBy, Position.line_after, Position.line_origin, Nat.zero_add]
  refine ⟨rfl, fun hline => ?_⟩
  rw [Position.offsetBy, if_neg (by omega), Position.line_after, Position.line_origin, Nat.zero_add]

theorem leadsBack_blockMap (filename source : String) (pre content : List Char) :
    LeadsBack filename pre content (blockMap filename source (breaks pre) content) where
  ink a c b hcontent hc hcomment := by
    have hbare : isBareLine (lineAround a c b) = false := by
      refine Bool.eq_false_iff.2 fun hbare => ?_
      rcases isBareLine_iff.1 hbare with hblank | hmark
      · have := List.all_eq_true.1 hblank c (by simp [lineAround])
        rw [hc] at this
        cases this
      · exact hcomment hmark
    obtain ⟨hline, hplace⟩ := after_append_of_line pre a
    exact ⟨_, original?_blockMap_of_ink hcontent hc hbare, rfl, rfl, rfl, hline.symm,
      fun h => (hplace h).symm⟩
  silent p h := by
    refine original?_blockMap_eq_none fun line hline => ?_
    rw [isBareLine_iff, or_assoc]
    exact h line hline

end BlockMap

namespace Component

/-- **The map of a script leads back to its file**: each character that is not white space is found on
its line, and below the first line of the content in its column too; all else is silent. -/
theorem leadsBack_map {source filename : String} {block : ScriptBlock}
    (h : (parse source filename).script = some block ∨
      (parse source filename).setupScript = some block) :
    ∃ pre post map, block.StandsIn source pre post ∧ block.map = some map ∧
      LeadsBack filename pre block.content.toList map := by
  have hreads := reads_parse source filename
  obtain ⟨pre, post, hstands, hmap⟩ : ∃ pre post,
      block.StandsIn (parse source filename).source pre post ∧
        block.map = some (blockMap (parse source filename).filename (parse source filename).source
          (breaks pre) block.content.toList) := by
    rcases h with h | h
    · exact hreads.located.script block h
    · exact hreads.located.setup block h
  rw [hreads.source] at hstands
  rw [hreads.filename] at hmap
  exact ⟨pre, post, _, hstands, hmap, leadsBack_blockMap _ _ _ _⟩

/-- A setup script below a template, with a bare comment mark and characters of several sizes. -/
def indentedSource : String :=
  "<template/>\n<script setup>\n  //\n//\r\n\té = '😀' // x\n</script>\n"

theorem leadsBack_indentedSource : ∃ block,
    (parse indentedSource "/app/A.vue").setupScript = some block ∧
    ∃ pre post map, block.StandsIn indentedSource pre post ∧ block.map = some map ∧
      LeadsBack "/app/A.vue" pre block.content.toList map := by
  have hparse : (parse indentedSource "/app/A.vue").setupScript.isSome = true := by decide +kernel
  obtain ⟨block, hblock⟩ := Option.isSome_iff_exists.1 hparse
  exact ⟨block, hblock, leadsBack_map (.inr hblock)⟩

end Component

end SingleFile
