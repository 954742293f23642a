import SingleFile.Proofs.Assembly.Answers
import SingleFile.Proofs.Assembly.Front

/-!
# Where the comment for coverage goes

Assembling puts the comment for coverage before the last render helper of the module so far, and the
script is part of the module.  A helper has no line break and the alias and the template are lines of
their own, so the last helper is in the script exactly if it is nowhere below
(`splitLast?_append_right`, `splitLast?_append_cons`).  Hence a module starts with its script as it
is, unless the script has a helper and the template is without one (`Assembly.prefix_assemble_iff`).
-/

namespace SingleFile

namespace Assembly

variable {a : Assembly} {f g : Fragment}

/-- The last render helper of the module up to its template is one in the script. -/
def MarksScript (a : Assembly) (f : Fragment) : Prop :=
  renderHelper <:+: f.code.toList ∧ ∃ g ∈ a.template,
    ¬ renderHelper <:+: a.aliasLine.toList ∧ ¬ renderHelper <:+: g.code.toList

/-- A text with the comment for coverage before its last render helper, if it has one. -/
def marked (cs : List Char) : List Char :=
  match splitLast? renderHelper cs with
  | some (front, back) => front ++ (coverageComment ++ (renderHelper ++ back))
  | none => cs

theorem marked_eq_self {cs : List Char} (h : ¬ renderHelper <:+: cs) : marked cs = cs := by
  rw [marked, splitLast?_eq_none_iff.2 h]

theorem marked_append_right {y : List Char} (h : renderHelper <:+: y) (x : List Char) :
    marked (x ++ y) = x ++ marked y := by
  unfold marked
  rw [splitLast?_append_right h]
  cases splitLast? renderHelper y with
  | none => rfl
  | some cut => exact List.append_assoc _ _ _

theorem marked_append_cons {y : List Char} (h : ¬ renderHelper <:+: y) (x : List Char) :
    marked (x ++ '\n' :: y) = marked x ++ '\n' :: y := by
  unfold marked
  rw [splitLast?_append_cons renderHelper_ne_nil break_notMem_renderHelper h]
  cases splitLast? renderHelper x with
  | none => rfl
  | some cut => simp

/-- What stands below a line without a render helper keeps the comment above. -/
theorem marked_append {x y : List Char} (hx : StartsLine x) (h : ¬ renderHelper <:+: y) :
    marked (x ++ y) = marked x ++ y := by
  rcases hx with rfl | ⟨s, rfl⟩
  · rw [List.nil_append, marked_eq_self h]
    rfl
  · rw [List.append_assoc, List.singleton_append, marked_append_cons h, marked_append_cons]
    · simp
    · exact not_infix_of_bar List.not_mem_nil

theorem marked_startLine (d : Draft) : ∃ more, marked (startLine d).code = marked d.code ++ more := by
  unfold startLine
  split
  · exact ⟨[], (List.append_nil _).symm⟩
  · exact ⟨['\n'], marked_append_cons (not_infix_of_bar List.not_mem_nil) d.code⟩

/-- Where the comment has been put in, the text no longer goes on as it did. -/
theorem not_prefix_marked {x : List Char} (h : renderHelper <:+: x) (more : List Char) :
    ¬ x <+: marked x ++ more := by
  obtain ⟨⟨front, back⟩, hcut⟩ : ∃ cut, splitLast? renderHelper x = some cut :=
    Option.ne_none_iff_exists'.1 fun hn => splitLast?_eq_none_iff.1 hn h
  unfold marked
  rw [hcut]
  nth_rewrite 1 [splitLast_eq hcut]
  dsimp only
  rw [List.append_assoc, List.append_assoc, List.prefix_append_right_inj]
  have hhelper : renderHelper = _ := String.toList_ofList
  have hcomment : coverageComment = _ := String.toList_ofList
  rintro ⟨t, ht⟩
  rw [hhelper, hcomment] at ht
  exact absurd (List.cons.inj ht).1 (by decide)

/-! ### The module -/

theorem code_templateDraft (htemplate : a.template = some g) :
    a.templateDraft.code =
      marked ((startLine a.body).code ++ (a.aliasLine.toList ++ g.code.toList)) ++
        (renderWiring a.isFunctional).toList := by
  have hpushed : (pushFragment (pushLine a.body a.aliasLine) g).code =
      (startLine a.body).code ++ (a.aliasLine.toList ++ g.code.toList) := by
    rw [pushFragment, startLine_of_startsLine (startsLine_pushLine_alias a), Draft.code_pushFragment]
    exact List.append_assoc _ _ _
  unfold templateDraft
  rw [htemplate]
  simp only [pushTemplate, Draft.code_push, Draft.insertBeforeLast?, marked, hpushed]
  cases hcut : splitLast? renderHelper
      ((startLine a.body).code ++ (a.aliasLine.toList ++ g.code.toList)) with
  | none => simp only [Option.getD_none, hpushed]
  | some cut =>
    have hdrop := congrArg (List.drop cut.1.length) (splitLast_eq hcut)
    rw [List.append_assoc, List.drop_left] at hdrop
    simp only [Option.getD_some, hdrop, List.append_assoc]

theorem prefix_assemble_of_templateDraft {cs : List Char} (h : cs <+: a.templateDraft.code) :
    cs <+: a.assemble.1.code.toList := by
  rw [code_assemble]
  exact draft_of_lines (P := fun d => cs <+: d.code) a h fun _ text h =>
    pushLine_of_push (P := fun d => cs <+: d.code)
      (fun d text h => h.trans (List.prefix_append d.code text)) h text

theorem prefix_startLine (d : Draft) : d.code <+: (startLine d).code :=
  startLine_of_push (P := fun d' => d.code <+: d'.code)
    (fun d' text h => h.trans (List.prefix_append d'.code text)) (List.prefix_refl _)

/-- A module whose comment does not go into the script starts with the script. -/
theorem prefix_assemble_of_not_marksScript (hscript : a.script = some f) (h : ¬ a.MarksScript f) :
    f.code.toList <+: a.assemble.1.code.toList := by
  apply prefix_assemble_of_templateDraft
  cases htemplate : a.template with
  | none =>
    unfold templateDraft
    rw [htemplate]
    exact prefix_code_pushLine_alias hscript
  | some g =>
    have hfront : f.code.toList <+: (startLine a.body).code := by
      rw [← code_body hscript]
      exact prefix_startLine a.body
    rw [code_templateDraft htemplate]
    refine List.IsPrefix.trans ?_ (List.prefix_append _ _)
    by_cases hbelow : renderHelper <:+: a.aliasLine.toList ++ g.code.toList
    · rw [marked_append_right hbelow]
      exact hfront.trans (List.prefix_append _ _)
    · have hnone : ¬ renderHelper <:+: f.code.toList := fun hin =>
        h ⟨hin, g, htemplate, fun hl => hbelow (hl.trans (List.prefix_append _ _).isInfix),
          fun hg => hbelow (hg.trans (List.suffix_append _ _).isInfix)⟩
      rw [marked_append (startsLine_startLine a.body) hbelow]
      obtain ⟨more, hmore⟩ := marked_startLine a.body
      rw [hmore, code_body hscript, marked_eq_self hnone, List.append_assoc]
      exact List.prefix_append _ _

/-- A module whose comment goes into the script starts with the script that has it. -/
theorem marked_prefix_assemble (hscript : a.script = some f) (h : a.MarksScript f) :
    ∃ more, a.assemble.1.code.toList = marked f.code.toList ++ more := by
  obtain ⟨-, g, htemplate, halias, hg⟩ := h
  have hbelow : ¬ renderHelper <:+: a.aliasLine.toList ++ g.code.toList := by
    obtain ⟨s, hs⟩ := exists_optionsAlias_eq a.esm a.body.code
    exact not_infix_append break_notMem_renderHelper (.inr ⟨s, hs⟩) halias hg
  obtain ⟨more, hmore⟩ := marked_startLine a.body
  have hfront : marked f.code.toList <+: a.templateDraft.code := by
    rw [code_templateDraft htemplate, marked_append (startsLine_startLine a.body) hbelow, hmore,
      code_body hscript, List.append_assoc, List.append_assoc]
    exact List.prefix_append _ _
  obtain ⟨more, hmore⟩ := prefix_assemble_of_templateDraft hfront
  exact ⟨more, hmore.symm⟩

/-- **The script at the front**: a module starts with its script as it is, unless the last render
helper up to the template is one in the script, and then with the script that has the comment for
coverage before its last helper. -/
theorem prefix_assemble_iff (hscript : a.script = some f) :
    (f.code.toList <+: a.assemble.1.code.toList ↔ ¬ a.MarksScript f) ∧
    (a.MarksScript f → ∃ front back more,
      splitLast? renderHelper f.code.toList = some (front, back) ∧
      f.code.toList = front ++ renderHelper ++ back ∧
      a.assemble.1.code.toList = front ++ coverageComment ++ renderHelper ++ back ++ more) := by
  refine ⟨⟨fun hstarts hmarks => ?_, prefix_assemble_of_not_marksScript hscript⟩, fun hmarks => ?_⟩
  · obtain ⟨more, hmore⟩ := marked_prefix_assemble hscript hmarks
    rw [hmore] at hstarts
    exact not_prefix_marked hmarks.1 more hstarts
  · obtain ⟨more, hmore⟩ := marked_prefix_assemble hscript hmarks
    obtain ⟨⟨front, back⟩, hcut⟩ : ∃ cut, splitLast? renderHelper f.code.toList = some cut :=
      Option.ne_none_iff_exists'.1 fun hn => splitLast?_eq_none_iff.1 hn hmarks.1
    refine ⟨front, back, more, hcut, splitLast_eq hcut, ?_⟩
    rw [hmore, marked, hcut]
    simp only [List.append_assoc]

end Assembly

/-! ### A script that names the helper -/

def quotingScript : Fragment :=
  ⟨"exports.default = \x7b text: 'var _c = _vm._self._c || _h' \x7d", none⟩

def quotingSample (template : String) : Assembly where
  filename := "/app/A.vue"
  esm := false
  isFunctional := true
  script := some quotingScript
  template := some ⟨template, none⟩
  styles := []
  custom := none

/-- A template with a helper of its own keeps the script; one that needs none breaks the string. -/
theorem prefix_assemble_quotingSample :
    quotingScript.code.toList <+:
      (quotingSample "var _c = _vm._self._c || _h\n").assemble.1.code.toList ∧
    ∃ more, (quotingSample "return _vm._c('p')\n").assemble.1.code.toList =
      "exports.default = \x7b text: '".toList ++ Assembly.coverageComment ++ Assembly.renderHelper ++
        "' \x7d".toList ++ more := by
  constructor
  · have hscript : (quotingSample "var _c = _vm._self._c || _h\n").script = some quotingScript := rfl
    refine (Assembly.prefix_assemble_iff hscript).1.2 ?_
    rintro ⟨-, g, hg, -, hnone⟩
    obtain rfl := Option.mem_some.1 hg
    exact hnone (by decide +kernel)
  · have hscript : (quotingSample "return _vm._c('p')\n").script = some quotingScript := rfl
    have hmarks : (quotingSample "return _vm._c('p')\n").MarksScript quotingScript :=
      ⟨by decide +kernel, _, rfl, by decide +kernel, by decide +kernel⟩
    have hlast : splitLast? Assembly.renderHelper quotingScript.code.toList =
        some ("exports.default = \x7b text: '".toList, "' \x7d".toList) := by decide +kernel
    obtain ⟨front, back, more, hcut, -, hcode⟩ := (Assembly.prefix_assemble_iff hscript).2 hmarks
    obtain ⟨rfl, rfl⟩ := Prod.mk.inj (Option.some.inj (hlast.symm.trans hcut))
    exact ⟨more, hcode⟩

theorem not_prefix_quotingSample :
    ¬ ∀ (a : Assembly) (f : Fragment), a.script = some f →
      f.code.toList <+: a.assemble.1.code.toList := by
  intro h
  have hstarts := h (quotingSample "return _vm._c('p')\n") quotingScript rfl
  rw [Assembly.code_assemble] at hstarts
  revert hstarts
  decide +kernel

end SingleFile
