import SingleFile.Proofs.Assembly.Alias
import SingleFile.Proofs.Script.DefaultExport
import SingleFile.Proofs.Script.ExportClause
import SingleFile.Proofs.Transform.Exports

/-!
# Which default export the alias names

A script that declares its default export is compiled to code with a line at the end that exports the
local name.  So its alias is never empty: it is of that name, unless what the script becomes has such a
text before the line (`defaultName?_append_footerText`).  A script without such a declaration is left as
it is, and a clause that is written like the line exports the name that the alias has, if it is found
first (`Assembly.namesDefault_of_compile`).

The text may stand anywhere.  One in a comment takes the place of the export that follows, and a clause
without blanks is not found at all (`not_names_movedScript`).
-/

namespace SingleFile

open Assembly Script Segment

/-! ### Lines at the end -/

/-- What follows finished lines is searched behind them. -/
theorem defaultName?_endLine (x y : List Char) : defaultName? (endLine x ++ y) =
    (defaultName? x).orElse fun _ => defaultName? y := by
  unfold endLine
  cases hlast : x.getLast? with
  | none =>
    obtain rfl := List.getLast?_eq_none_iff.1 hlast
    rfl
  | some c =>
    dsimp only
    split
    · next hc =>
      obtain ⟨s, rfl⟩ := List.getLast?_eq_some_iff.1 hlast
      have hends := defaultName?_append_cons s []
      subst hc
      rw [List.append_assoc, List.singleton_append, defaultName?_append_cons, hends]
      cases defaultName? s <;> rfl
    · rw [List.append_assoc, List.singleton_append, defaultName?_append_cons]

theorem toList_defaultFooter (name : String) : (defaultFooter .ecmaScript name).toList =
    exportOpening ++ (name.toList ++ exportClosing) := by
  unfold defaultFooter exportOpening exportClosing
  rw [String.toList_append, String.toList_append, List.append_assoc]

/-- In compiled code the name of the first footer is found, unless another one is found before. -/
theorem defaultName?_append_footerText (body : List Char) {name : String}
    (hname : '\n' ∉ name.toList) (more : List String) : defaultName? (body ++ footerText body
        ((name :: more).map (defaultFooter .ecmaScript))) =
      (defaultName? body).orElse fun _ => some name.toList := by
  have hlines : endLines ((name :: more).map (defaultFooter .ecmaScript)) =
      exportOpening ++ (name.toList ++ exportClosing) ++
        '\n' :: endLines (more.map (defaultFooter .ecmaScript)) := by
    unfold endLines
    rw [List.map_cons, List.flatMap_cons, toList_defaultFooter, List.append_assoc,
      List.singleton_append]
  rw [append_footerText (by simp), defaultName?_endLine, hlines, defaultName?_export hname]

/-! ### The alias of a compiled script -/

theorem clauseText_eq (name after : List Char) :
    exportOpening ++ (name ++ (exportClosing ++ after)) = "export".toList ++ clauseBody name after := by
  unfold exportOpening exportClosing clauseBody
  simp

namespace Assembly

/-- How the alias of a module comes to name a default export of its script.  `code` is the compiled
script, made of the given segments. -/
structure NamesDefault (a : Assembly) (script code : List Char) (items : List Item)
    (ss : List Segment) : Prop where
  source : sources ss = script
  text : code = outputs ss ++ footerText (outputs ss)
    ((defaultLocals script items).map (defaultFooter .ecmaScript))
  declared : ∀ item ∈ items, ∀ name, item.defaultLocal? script = some name →
    Identifier name ∧ item.DeclaredAs script ss name
  line : ∃ spot, annotate spot ((startLine a.body).code ++ a.aliasLine.toList) <+:
    a.assemble.1.code.toList
  aliases : a.Aliases code
  named : ∀ name more, defaultLocals script items = name :: more →
    (a.aliasLine = aliasOf name ∧ ∀ before other after, ¬ Mention (outputs ss) before other after) ∨
    ∃ other : String, a.aliasLine = aliasOf other ∧ FirstMention (outputs ss) other.toList
  filled : defaultLocals script items ≠ [] → a.aliasLine ≠ emptyAlias ∧ a.assemble.2 = []
  unchanged : defaultLocals script items = [] → code = script
  listed : defaultLocals script items = [] →
    ∀ span bindings, .exportNamed span bindings none ∈ items →
    ∀ before name after, Mention script before name.toList after → byteLength before = span.start →
      Identifier name →
      (Item.exportNamed span bindings none).exports script = [⟨"default", .binding name⟩] ∧
      ((∀ b n a, Mention script b n a → before.length ≤ b.length) →
        ¬ exportClosing <:+: after.takeWhile (· ≠ '\n') → a.aliasLine = aliasOf name)

variable {a : Assembly}

/-- **The alias names the default export** of a compiled script as far as its text tells.  Where the
script declares its default export, the local name is an identifier, declared in place of the export
and exported on a line at the end; the alias is never empty, and it is of this name unless a text before
the line is taken for such a line.  A script without such an export is not changed, and where a clause
is written like the line, it exports its name as the default, and the alias is of that name if the
clause is the first such text. -/
theorem namesDefault_of_compile {f made : Fragment} {file source : String}
    (hmade : compile .ecmaScript file source = .ok made) (hesm : a.esm = true)
    (hscript : a.script = some f) (hcode : f.code = made.code) :
    ∃ items ss, parse source = .ok items ∧
      a.NamesDefault source.toList f.code.toList items ss := by
  obtain ⟨items, ss, hparse, hsource, htext, hdeclared, hunchanged⟩ :=
    exists_compile_defaultLocals hmade
  have haliases := aliases hesm hscript
  rw [← hcode] at htext hunchanged
  have hnamed : ∀ name more, defaultLocals source.toList items = name :: more →
      (a.aliasLine = aliasOf name ∧
        ∀ before other after, ¬ Mention (outputs ss) before other after) ∨
      ∃ other : String, a.aliasLine = aliasOf other ∧ FirstMention (outputs ss) other.toList := by
    intro name more hlocals
    have hname : '\n' ∉ name.toList := by
      obtain ⟨item, hitem, hlocal⟩ := List.mem_filterMap.1 (hlocals ▸ List.mem_cons_self)
      exact (hdeclared item hitem name hlocal).1.oneLine
    have hfound := defaultName?_append_footerText (outputs ss) hname more
    rw [← hlocals, ← htext] at hfound
    cases hbody : defaultName? (outputs ss) with
    | none =>
      rw [hbody] at hfound
      exact .inl ⟨haliases.line_iff.2 (defaultName?_eq_some_iff.1 hfound),
        defaultName?_eq_none_iff.1 hbody⟩
    | some other =>
      rw [hbody] at hfound
      rw [← String.toList_ofList (l := other)] at hfound hbody
      exact .inr ⟨String.ofList other, haliases.line_iff.2 (defaultName?_eq_some_iff.1 hfound),
        defaultName?_eq_some_iff.1 hbody⟩
  refine ⟨items, ss, hparse, {
    source := hsource
    text := htext
    declared := hdeclared
    line := exists_alias_prefix hscript
    aliases := haliases
    named := hnamed
    filled := fun hsome => ?_
    unchanged := fun hnone => congrArg String.toList (hunchanged hnone)
    listed := fun hnone span bindings hitem before name after hmention hstart hname =>
      ⟨exports_of_clauseText hparse hitem hname (hmention.split.trans (congrArg (before ++ ·)
        (clauseText_eq name.toList after))) hstart, fun hfirst hclosed => ?_⟩ }⟩
  · obtain ⟨name, more, hlocals⟩ := List.exists_cons_of_ne_nil hsome
    have hline : a.aliasLine ≠ emptyAlias := by
      rcases hnamed name more hlocals with ⟨hline, -⟩ | ⟨other, hline, -⟩
      · exact hline ▸ aliasOf_ne_emptyAlias _
      · exact hline ▸ aliasOf_ne_emptyAlias _
    exact ⟨hline, haliases.events_of_ne hline⟩
  · have hfound := hmention.first hfirst hclosed
    rw [← hunchanged hnone] at hfound
    exact haliases.line_iff.2 hfound

end Assembly

/-- A module in the newer syntax that is just a script. -/
def scriptModule (f : Fragment) : Assembly where
  filename := "/app/Card.vue"
  esm := true
  isFunctional := false
  script := some f
  template := none
  styles := []
  custom := none

def cardScript : String := "export default class Card \x7b\x7d\n"

theorem namesDefault_cardScript :
    ∃ made items ss, compile .ecmaScript "/app/Card.vue" cardScript = .ok made ∧
      parse cardScript = .ok items ∧
      (scriptModule made).NamesDefault cardScript.toList made.code.toList items ss ∧
      (scriptModule made).aliasLine = aliasOf "Card" := by
  have hcompiled : (compiledText? .ecmaScript cardScript).any (fun cs =>
      decide (defaultName? cs = some "Card".toList)) = true := by decide +kernel
  obtain ⟨made, hmade, hfound⟩ := exists_compile_of_any hcompiled "/app/Card.vue"
  obtain ⟨items, ss, hparse, hnames⟩ := namesDefault_of_compile
    (a := scriptModule made) hmade rfl rfl rfl
  exact ⟨made, items, ss, hmade, hparse, hnames,
    hnames.aliases.line_iff.2 (defaultName?_eq_some_iff.1 (of_decide_eq_true hfound))⟩

/-! ### Texts that are taken for exports -/

/-- The local name of what is exported, in the newer format. -/
def Script.ExportedValue.local? : ExportedValue → Option String
  | .binding name => some name
  | .expression _ => some componentName
  | .member _ _ | .whole _ => none

/-- The local names that a script exports as the default. -/
def Script.exportedDefaults (script : List Char) (items : List Item) : List String :=
  (items.flatMap (Item.exports script)).filterMap fun e =>
    if e.name = "default" then e.value.local? else none

/-- A script whose default export comes behind a comment that tells of another one. -/
def movedScript : String := "// export \x7b Base as default \x7d moved\nexport default \x7b\x7d"

/-- A script with a clause that is written without blanks. -/
def tightScript : String := "const a = \x7b\x7d\nexport \x7ba as default\x7d"

/-- The alias of the one is of a name that its script does not export, and that of the other is empty
although its script has a default export. -/
theorem not_names_movedScript :
    (¬ ∀ (file source : String) (items : List Item) (made : Fragment) (a : Assembly) (name : String),
      parse source = .ok items → compile .ecmaScript file source = .ok made → a.esm = true →
        a.script = some made → a.aliasLine = aliasOf name →
          name ∈ exportedDefaults source.toList items) ∧
    ¬ ∀ (file source : String) (items : List Item) (made : Fragment) (a : Assembly),
      parse source = .ok items → compile .ecmaScript file source = .ok made → a.esm = true →
        a.script = some made → a.aliasLine = emptyAlias →
          exportedDefaults source.toList items = [] := by
  constructor
  · intro h
    have hcompiled : (compiledText? .ecmaScript movedScript).any (fun cs =>
        decide (defaultName? cs = some "Base".toList)) = true := by decide +kernel
    have hparse : parse movedScript = .ok [.exportValue ⟨36, 53⟩ 51] := by decide +kernel
    obtain ⟨made, hmade, hfound⟩ := exists_compile_of_any hcompiled "/app/Card.vue"
    have hline : (scriptModule made).aliasLine = aliasOf "Base" :=
      (aliases rfl rfl).line_iff.2 (defaultName?_eq_some_iff.1 (of_decide_eq_true hfound))
    have hbase := h _ _ _ _ (scriptModule made) "Base" hparse hmade rfl rfl hline
    revert hbase
    decide +kernel
  · intro h
    have hcompiled : (compiledText? .ecmaScript tightScript).any (fun cs =>
        decide (defaultName? cs = none)) = true := by decide +kernel
    have hparse : parse tightScript = .ok [.statement ⟨0, 12⟩ [⟨"a", ⟨6, 7⟩⟩],
        .exportNamed ⟨13, 34⟩ [.named ⟨21, 22⟩ (some ⟨26, 33⟩)] none] := by decide +kernel
    obtain ⟨made, hmade, hfound⟩ := exists_compile_of_any hcompiled "/app/Card.vue"
    have hline : (scriptModule made).aliasLine = emptyAlias :=
      (aliases rfl rfl).empty_iff.2 (defaultName?_eq_none_iff.1 (of_decide_eq_true hfound))
    have hnone := h _ _ _ _ (scriptModule made) hparse hmade rfl rfl hline
    revert hnone
    decide +kernel

end SingleFile
