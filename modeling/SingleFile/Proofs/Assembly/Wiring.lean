import SingleFile.Proofs.Assembly.Coverage

/-!
# The statements that wire a component

A module with a template is three texts: all up to the template, the statements that give the options
their render functions, and what stands below (`Assembly.code_of_template`).  Where the component is
functional, the statements that say so are the last of the wiring (`Assembly.setsFlags_iff`), and they
are nowhere else unless another part brings a text of that kind (`Assembly.flagLines_infix_iff`).
-/

namespace SingleFile.Assembly

variable {a : Assembly} {g : Fragment}

def renderLines : List Char :=
  "\n__options__.render = render\n__options__.staticRenderFns = staticRenderFns\n".toList

/-- The statements that mark the options as those of a functional component. -/
def flagLines : List Char := "__options__.functional = true\n__options__._compiled = true\n".toList

/-- What the first mark assigns to. -/
def flagTarget : List Char := "__options__.functional".toList

/-- A module up to its template. -/
def upToTemplate (a : Assembly) (g : Fragment) : List Char :=
  marked ((startLine a.body).code ++ (a.aliasLine.toList ++ g.code.toList))

/-- What stands below the wiring of a template. -/
def belowTemplate (a : Assembly) : List Char :=
  (if a.styles.isEmpty then [] else (styleBlock a.isFunctional a.styles).toList) ++
    match a.custom with
    | some code => (";\n " ++ code).toList
    | none => []

/-- Whether the statements that mark a functional component stand behind the wiring of the template. -/
def SetsFlags (a : Assembly) (g : Fragment) : Prop :=
  a.assemble.1.code.toList = a.upToTemplate g ++ (renderLines ++ (flagLines ++ a.belowTemplate))

theorem renderLines_eq : renderLines = "\n".toList ++ (optionsName.toList ++
    (".render = render\n".toList ++ (optionsName.toList ++
      ".staticRenderFns = staticRenderFns\n".toList))) := by
  have hlines : renderLines = _ := String.toList_ofList
  have hbreak : "\n".toList = _ := String.toList_ofList
  have hname : optionsName.toList = _ := String.toList_ofList
  have hrender : ".render = render\n".toList = _ := String.toList_ofList
  have hstatic : ".staticRenderFns = staticRenderFns\n".toList = _ := String.toList_ofList
  rw [hlines, hbreak, hname, hrender, hstatic]
  rfl

theorem flagLines_eq : flagLines = optionsName.toList ++ (".functional = true\n".toList ++
    (optionsName.toList ++ "._compiled = true\n".toList)) := by
  have hlines : flagLines = _ := String.toList_ofList
  have hname : optionsName.toList = _ := String.toList_ofList
  have hfunctional : ".functional = true\n".toList = _ := String.toList_ofList
  have hcompiled : "._compiled = true\n".toList = _ := String.toList_ofList
  rw [hlines, hname, hfunctional, hcompiled]
  rfl

theorem renderWiring_eq (functional : Bool) : (renderWiring functional).toList =
    renderLines ++ if functional then flagLines else [] := by
  rw [renderLines_eq, flagLines_eq]
  unfold renderWiring
  cases functional with
  | true =>
    rw [if_pos rfl, if_pos rfl]
    repeat rw [String.toList_append]
    simp only [List.append_assoc]
  | false =>
    rw [if_neg (by decide), if_neg (by decide)]
    repeat rw [String.toList_append]
    simp only [List.append_assoc]
    rfl

theorem startsLine_append {x y : List Char} (h : y.getLast? = some '\n') : StartsLine (x ++ y) := by
  obtain ⟨z, rfl⟩ := List.getLast?_eq_some_iff.1 h
  exact .inr ⟨x ++ z, (List.append_assoc x z ['\n']).symm⟩

theorem getLast?_styleBlock (functional : Bool) (styles : List StyleResult) :
    (styleBlock functional styles).toList.getLast? = some '\n' := by
  cases functional with
  | true => exact getLast?_append_ofList _ rfl
  | false => exact getLast?_append_ofList _ rfl

theorem code_pushLine_of_startsLine {d : Draft} (h : StartsLine d.code) (text : String) :
    (pushLine d text).code = d.code ++ text.toList := by
  rw [pushLine, startLine_of_startsLine h, Draft.code_push]

def styledDraft (a : Assembly) : Draft :=
  if a.styles.isEmpty then a.templateDraft
  else pushLine a.templateDraft (styleBlock a.isFunctional a.styles)

theorem draft_eq (a : Assembly) : a.draft = match a.custom with
    | some code => pushLine a.styledDraft (";\n " ++ code)
    | none => a.styledDraft := rfl

theorem startsLine_templateDraft (htemplate : a.template = some g) :
    StartsLine a.templateDraft.code := by
  have hrender : renderLines.getLast? = _ := congrArg List.getLast? String.toList_ofList
  have hflags : flagLines.getLast? = _ := congrArg List.getLast? String.toList_ofList
  rw [code_templateDraft htemplate, renderWiring_eq]
  refine startsLine_append ?_
  cases a.isFunctional with
  | true =>
    rw [if_pos rfl, List.getLast?_append, hflags]
    rfl
  | false =>
    rw [if_neg (by decide), List.append_nil, hrender]
    rfl

theorem code_styledDraft (htemplate : a.template = some g) : a.styledDraft.code =
    a.templateDraft.code ++
      if a.styles.isEmpty then [] else (styleBlock a.isFunctional a.styles).toList := by
  unfold styledDraft
  split
  · rw [List.append_nil]
  · exact code_pushLine_of_startsLine (startsLine_templateDraft htemplate) _

theorem startsLine_styledDraft (htemplate : a.template = some g) : StartsLine a.styledDraft.code := by
  rw [code_styledDraft htemplate]
  split
  · rw [List.append_nil]
    exact startsLine_templateDraft htemplate
  · exact startsLine_append (getLast?_styleBlock _ _)

/-- A module with a template. -/
theorem code_of_template (htemplate : a.template = some g) : a.assemble.1.code.toList =
    a.upToTemplate g ++ (renderLines ++
      ((if a.isFunctional then flagLines else []) ++ a.belowTemplate)) := by
  have hdraft : a.draft.code = a.templateDraft.code ++ a.belowTemplate := by
    rw [draft_eq, belowTemplate, ← List.append_assoc, ← code_styledDraft htemplate]
    cases a.custom with
    | none => rw [List.append_nil]
    | some code => exact code_pushLine_of_startsLine (startsLine_styledDraft htemplate) _
  rw [code_assemble, hdraft, code_templateDraft htemplate, renderWiring_eq, upToTemplate]
  simp only [List.append_assoc]

/-- The marks stand behind the wiring just where the component is taken to be functional. -/
theorem setsFlags_iff (htemplate : a.template = some g) :
    a.SetsFlags g ↔ a.isFunctional = true := by
  have hcode := code_of_template htemplate
  unfold SetsFlags
  rw [hcode]
  cases a.isFunctional with
  | true => exact iff_of_true rfl rfl
  | false =>
    refine iff_of_false (fun heq => ?_) (by decide)
    have hlength := congrArg List.length heq
    have hflags : flagLines.length = 59 := (congrArg List.length String.toList_ofList).trans rfl
    simp only [Bool.false_eq_true, if_false, List.length_append, List.length_nil] at hlength
    omega

/-- The marks are in the code just where they stand behind the wiring, if no other part brings them. -/
theorem flagLines_infix_iff (htemplate : a.template = some g)
    (habove : ¬ flagTarget <:+: a.upToTemplate g) (hbelow : ¬ flagTarget <:+: a.belowTemplate) :
    flagLines <:+: a.assemble.1.code.toList ↔ a.SetsFlags g := by
  constructor
  · intro h
    rw [setsFlags_iff htemplate]
    by_contra hplain
    have hchars : flagTarget = _ := String.toList_ofList
    have htarget : flagTarget <:+: a.assemble.1.code.toList := by
      have hflags : flagLines = _ := String.toList_ofList
      refine .trans ?_ h
      rw [hchars, hflags]
      decide
    obtain ⟨lines, hlines, hno⟩ : ∃ lines, renderLines = '\n' :: (lines ++ ['\n']) ∧
        ¬ flagTarget <:+: lines := by
      have hrender : renderLines = _ := String.toList_ofList
      refine ⟨renderLines.tail.dropLast, ?_, ?_⟩
      · rw [hrender]
        rfl
      · rw [hrender, hchars]
        decide +kernel
    have hbreak : '\n' ∉ flagTarget := by
      rw [hchars]
      decide
    rw [code_of_template htemplate, if_neg hplain, hlines, List.nil_append, List.cons_append,
      List.append_assoc, List.singleton_append] at htarget
    rcases infix_or_infix_of_infix_append_cons hbreak htarget with h | h
    · exact habove h
    · exact (infix_or_infix_of_infix_append_cons hbreak h).elim hno hbelow
  · intro h
    rw [h]
    refine ⟨a.upToTemplate g ++ renderLines, a.belowTemplate, ?_⟩
    simp only [List.append_assoc]

end SingleFile.Assembly
