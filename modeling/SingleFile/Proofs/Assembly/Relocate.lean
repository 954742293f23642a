import SingleFile.Proofs.Assembly.Layout
import SingleFile.Proofs.SourceMap.Relocate

/-!
# Modules whose script has another map

The code of a module does not depend on the maps of its fragments (`Assembly.code_assemble_congr`).
Where only the script has a map, relocating that one relocates the map of the module
(`Assembly.assemble_relocate`).
-/

namespace SingleFile

/-- The fragment with its map relocated. -/
def Fragment.relocate (f : Nat → Nat) (text : String) (made : Fragment) : Fragment :=
  { made with map := made.map.map (SourceMap.relocate f text) }

namespace Assembly

/-- What the template and the lines below keep of two drafts, the parts below the alias keep. -/
theorem pushParts_of_lines {P : Draft → Draft → Prop} (a : Assembly)
    (htemplate : ∀ t ∈ a.template, ∀ d d', P d d' →
      P (pushTemplate a.isFunctional d t) (pushTemplate a.isFunctional d' t))
    (hline : ∀ d d' text, P d d' → P (pushLine d text) (pushLine d' text)) {d d' : Draft}
    (h : P d d') : P (a.pushParts d) (a.pushParts d') := by
  have hstyles {d d' : Draft} (h : P d d') :
      P (if a.styles.isEmpty then d else pushLine d (styleBlock a.isFunctional a.styles))
        (if a.styles.isEmpty then d' else pushLine d' (styleBlock a.isFunctional a.styles)) := by
    split
    · exact h
    · exact hline _ _ _ h
  unfold pushParts
  cases ht : a.template with
  | none =>
    cases a.custom with
    | none => exact hstyles h
    | some code => exact hline _ _ _ (hstyles h)
  | some template =>
    have hpushed := htemplate template ht _ _ h
    cases a.custom with
    | none => exact hstyles hpushed
    | some code => exact hline _ _ _ (hstyles hpushed)

/-! ### Code -/

section Code

variable {d d' : Draft}

theorem code_startLine_congr (h : d.code = d'.code) : (startLine d).code = (startLine d').code := by
  unfold startLine Draft.atLineStart Draft.newline Draft.push
  rw [h]
  split <;> split <;> simp_all

theorem code_pushLine_congr (h : d.code = d'.code) (text : String) :
    (pushLine d text).code = (pushLine d' text).code :=
  congrArg (· ++ text.toList) (code_startLine_congr h)

theorem code_pushFragment_congr (h : d.code = d'.code) {made made' : Fragment}
    (hmade : made.code = made'.code) : (pushFragment d made).code = (pushFragment d' made').code := by
  unfold pushFragment
  rw [Draft.code_pushFragment, Draft.code_pushFragment, code_startLine_congr h, hmade]

theorem code_pushTemplate_congr (h : d.code = d'.code) (isFunctional : Bool) (template : Fragment) :
    (pushTemplate isFunctional d template).code = (pushTemplate isFunctional d' template).code := by
  have hcode := code_pushFragment_congr h (rfl : template.code = template.code)
  unfold pushTemplate Draft.insertBeforeLast?
  dsimp only
  rw [hcode]
  cases splitLast? renderHelper (pushFragment d' template).code with
  | none => exact congrArg (· ++ _) hcode
  | some parts => rfl

/-- The maps of the script take no part in the code. -/
theorem code_assemble_congr (a : Assembly) {script : Option Fragment}
    (h : a.script.map (·.code) = script.map (·.code)) :
    { a with script }.assemble.1.code = a.assemble.1.code := by
  have hbody : a.body.code = { a with script }.body.code := by
    unfold body
    cases hs : a.script with
    | none =>
      rw [hs] at h
      rw [Option.map_eq_none_iff.1 h.symm]
    | some made =>
      rw [hs] at h
      obtain ⟨made', hmade', hcode⟩ := Option.map_eq_some_iff.1 h.symm
      rw [hmade']
      exact code_pushFragment_congr rfl hcode.symm
  have hparts := pushParts_of_lines (P := fun d d' => d.code = d'.code) a
    (fun t _ d d' h => code_pushTemplate_congr h _ t) (fun d d' text h => code_pushLine_congr h text)
    (code_pushLine_congr hbody (optionsAlias a.esm a.body.code).1)
  rw [← String.toList_inj, code_assemble, code_assemble]
  unfold draft aliasLine
  rw [hparts, hbody]
  rfl

end Code

/-! ### Maps -/

section Map

variable (f : Nat → Nat) (text : String)

theorem relocate_startLine (d : Draft) :
    startLine (d.relocate f text) = (startLine d).relocate f text := by
  unfold startLine
  show (if d.atLineStart then _ else _) = _
  split <;> rfl

theorem relocate_pushLine (d : Draft) (line : String) :
    pushLine (d.relocate f text) line = (pushLine d line).relocate f text := by
  unfold pushLine
  rw [relocate_startLine]
  rfl

theorem relocate_pushFragment (d : Draft) (made : Fragment) :
    pushFragment (d.relocate f text) (made.relocate f text) =
      (pushFragment d made).relocate f text := by
  unfold pushFragment
  rw [relocate_startLine]
  exact Draft.relocate_pushFragment f text _ _ _

/-- A template without a map is relocated by what stands before it. -/
theorem relocate_pushTemplate (isFunctional : Bool) (d : Draft) {template : Fragment}
    (h : template.map = none) :
    pushTemplate isFunctional (d.relocate f text) template =
      (pushTemplate isFunctional d template).relocate f text := by
  have htemplate : template.relocate f text = template := by
    unfold Fragment.relocate
    rw [h]
    exact congrArg (Fragment.mk template.code) h.symm
  have hpush := relocate_pushFragment f text d template
  rw [htemplate] at hpush
  unfold pushTemplate
  dsimp only
  rw [hpush, Draft.relocate_insertBeforeLast?]
  cases (pushFragment d template).insertBeforeLast? renderHelper coverageComment <;> rfl

theorem relocate_pushParts (a : Assembly) (htemplate : ∀ t ∈ a.template, t.map = none) (d : Draft) :
    a.pushParts (d.relocate f text) = (a.pushParts d).relocate f text := by
  apply pushParts_of_lines (P := fun x y => x = y.relocate f text) a
  · rintro t ht _ d rfl
    exact relocate_pushTemplate f text _ d (htemplate t ht)
  · rintro _ d line rfl
    exact relocate_pushLine f text d line
  · rfl

/-- Where only the script has a map, relocating it relocates the map of the module. -/
theorem assemble_relocate (a : Assembly) (htemplate : ∀ t ∈ a.template, t.map = none) :
    { a with script := a.script.map (Fragment.relocate f text) }.assemble.1 =
      ⟨a.assemble.1.code, a.assemble.1.map.relocate f text⟩ := by
  have hbody : { a with script := a.script.map (Fragment.relocate f text) }.body =
      a.body.relocate f text := by
    unfold body
    cases a.script with
    | none => rfl
    | some made => exact relocate_pushFragment f text {} made
  have hdraft : { a with script := a.script.map (Fragment.relocate f text) }.draft =
      a.draft.relocate f text := by
    unfold draft aliasLine
    rw [hbody, ← relocate_pushParts f text a htemplate, ← relocate_pushLine]
    rfl
  have hfinish : { a with script := a.script.map (Fragment.relocate f text) }.draft.finish
      (some a.filename) = ((a.draft.finish (some a.filename)).1,
        (a.draft.finish (some a.filename)).2.relocate f text) := by
    rw [hdraft, Draft.finish_relocate]
  exact congrArg (fun r => Output.mk r.1 r.2) hfinish

end Map

end Assembly

end SingleFile
