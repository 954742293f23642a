import SingleFile.Assembly
import SingleFile.Proofs.SourceMap.Draft

/-!
# The draft of a module

A module is drafted up to its template, and lines are added below (`Assembly.draft_of_lines`).
-/

namespace SingleFile.Assembly

/-- The line that binds the options of the component. -/
def aliasLine (a : Assembly) : String := (optionsAlias a.esm a.body.code).1

def templateDraft (a : Assembly) : Draft :=
  match a.template with
  | some template => pushTemplate a.isFunctional (pushLine a.body a.aliasLine) template
  | none => pushLine a.body a.aliasLine

/-- The draft that the module is made of. -/
def draft (a : Assembly) : Draft := a.pushParts (pushLine a.body a.aliasLine)

theorem code_assemble (a : Assembly) : a.assemble.1.code.toList = a.draft.code := by
  show (String.ofList a.draft.code).toList = _
  rw [String.toList_ofList]

theorem map_assemble (a : Assembly) : a.assemble.1.map = (a.draft.finish (some a.filename)).2 := rfl

/-- What follows the template are lines of their own. -/
theorem draft_of_lines {P : Draft → Prop} (a : Assembly) (h : P a.templateDraft)
    (hline : ∀ d text, P d → P (pushLine d text)) : P a.draft := by
  have hstyles : P (if a.styles.isEmpty then a.templateDraft
      else pushLine a.templateDraft (styleBlock a.isFunctional a.styles)) := by
    split
    · exact h
    · exact hline _ _ h
  unfold draft pushParts
  cases a.custom with
  | none => exact hstyles
  | some code => exact hline _ _ hstyles

/-! ### Starting a line -/

theorem startsLine_startLine (d : Draft) : StartsLine (startLine d).code := by
  unfold startLine
  split
  · next h =>
    unfold Draft.atLineStart at h
    cases hl : d.code.getLast? with
    | none => exact .inl (List.getLast?_eq_none_iff.1 hl)
    | some c =>
      rw [hl] at h
      obtain rfl : c = '\n' := by simpa using h
      exact .inr (List.getLast?_eq_some_iff.1 hl)
  · exact .inr ⟨d.code, rfl⟩

theorem startLine_of_startsLine {d : Draft} (h : StartsLine d.code) : startLine d = d := by
  unfold startLine Draft.atLineStart
  rcases h with hnil | ⟨s, hs⟩
  · rw [hnil]
    rfl
  · rw [hs, List.getLast?_concat]
    rfl

/-- A line is started by adding nothing or a line break. -/
theorem startLine_of_push {P : Draft → Prop} (hpush : ∀ d text, P d → P (d.push text)) {d : Draft}
    (h : P d) : P (startLine d) := by
  unfold startLine
  split
  · exact h
  · exact hpush _ _ h

theorem pushLine_of_push {P : Draft → Prop} (hpush : ∀ d text, P d → P (d.push text)) {d : Draft}
    (h : P d) (text : String) : P (pushLine d text) :=
  hpush _ _ (startLine_of_push hpush h)

/-- The statement that registers the styles stands in the module as it is. -/
theorem infix_styleBlock {a : Assembly} (h : a.styles ≠ []) :
    (styleBlock a.isFunctional a.styles).toList <:+: a.assemble.1.code.toList := by
  rw [code_assemble]
  have hempty : a.styles.isEmpty = false := by
    rw [List.isEmpty_eq_false_iff]
    exact h
  have hstyles (d : Draft) : (styleBlock a.isFunctional a.styles).toList <:+:
      (pushLine d (styleBlock a.isFunctional a.styles)).code :=
    (List.suffix_append (startLine d).code _).isInfix
  unfold draft pushParts
  rw [hempty]
  cases a.custom with
  | none => exact hstyles _
  | some code =>
    have hpush (d : Draft) (text : List Char)
        (h : (styleBlock a.isFunctional a.styles).toList <:+: d.code) :
        (styleBlock a.isFunctional a.styles).toList <:+: (d.push text).code :=
      h.trans (List.prefix_append d.code text).isInfix
    exact pushLine_of_push hpush (hstyles _) _

end SingleFile.Assembly
