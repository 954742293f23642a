import SingleFile.Proofs.Script.Exported
import SingleFile.Proofs.Script.Words

/-!
# The local name of a default export

In the newer format only default exports are rewritten (`editOf_ecmaScript`).  Each gets a local name,
and a line at the end exports it as the default: a function or class keeps its own name, and what has
none becomes the value of a constant.  The name is an `Identifier`, and it is declared in place of the
export, at the top of the module (`Item.DeclaredAs`, `exists_compile_defaultLocals`).
-/

namespace SingleFile.Script

open Cursor Segment

/-! ### Names of declarations -/

/-- A word that stands in a script is an identifier, as the script has it. -/
theorem identifier_of_word {script : List Char} {a : Place} {n : Name} (ha : a.StandsIn script)
    (h : a.Word n) : Identifier (textAt script n.span) := by
  obtain ⟨front, problems, ⟨x, hx, hsize⟩, htaken⟩ := ha
  obtain ⟨⟨e, hlexeme⟩, hspan⟩ := h
  have hword : (takeToken a.token.start front).lexeme = .word n.text e := by
    rw [htaken]
    exact hlexeme
  obtain ⟨taken, hmoved, -, hread⟩ := exists_taken_of_word hword
  rw [htaken] at hmoved
  have hscript : script = x ++ taken ++ a.rest := by
    rw [List.append_assoc]
    exact hx.trans (congrArg (x ++ ·) hmoved.1)
  have htext : n.span.text? script = some taken := by
    rw [hspan]
    exact Span.text?_eq_some hscript (hsize.trans (Nat.zero_add _)).symm hmoved.2.symm
  rw [textAt, htext]
  refine ⟨a.token.start, n.text, e, ?_⟩
  have halone := hread a.token.start [] endsWord_nil
  rw [List.append_nil] at halone
  rw [Option.getD_some, String.toList_ofList]
  exact halone

/-- A name is that of a function or class that starts at an offset of a script. -/
def DeclaresAt (script : List Char) (offset : Nat) (n : Name) : Prop :=
  ∃ a : Place, a.StandsIn script ∧ a.token.start = offset ∧ a.DeclaresNamed n

theorem DeclaresAt.identifier {script : List Char} {offset : Nat} {n : Name}
    (h : DeclaresAt script offset n) : Identifier (textAt script n.span) := by
  obtain ⟨a, ha, -, hfunction | hclass⟩ := h
  · cases hfunction with
    | @function _ _ b c hasync hkeyword hstar hname =>
      have hb : b.StandsIn script := by
        rcases hasync with rfl | ⟨-, rfl⟩
        · exact ha
        · exact ha.next
      rcases hstar with rfl | ⟨-, rfl⟩
      · exact identifier_of_word hb.next hname
      · exact identifier_of_word hb.next.next hname
  · cases hclass with
    | classNamed hkeyword hname => exact identifier_of_word ha.next hname

/-- **The name of a default export** is that of a function or a class, which starts where the keywords
of the export end. -/
theorem declaresAt_of_parse {source : String} {items : List Item} (h : parse source = .ok items)
    {span : Span} {start : Nat} {n : Name} (hitem : .exportDefault span start (some n) ∈ items) :
    DeclaresAt source.toList start n := by
  cases found_of_parse h _ hitem with
  | exported stands keyword starts =>
    cases starts with
    | exportNamedDefault _ _ declares => exact ⟨_, stands.next.next, rfl, declares⟩

/-! ### What stands for default exports -/

/-- The local name of what an item exports as the default by a declaration. -/
def Item.defaultLocal? (script : List Char) : Item → Option String
  | .exportValue _ _ | .exportDefault _ _ none => some componentName
  | .exportDefault _ _ (some n) => some (textAt script n.span)
  | _ => none

def Item.defaultStart : Item → String
  | .exportDefault _ _ (some _) => ""
  | _ => "const " ++ componentName ++ " = "

/-- Only default exports are rewritten. -/
theorem editOf_ecmaScript (script : List Char) (n : Nat) (item : Item) :
    editOf script .ecmaScript n item = (item.defaultLocal? script).map fun name =>
      ⟨⟨item.span.start, item.headStop⟩, item.defaultStart, [defaultFooter .ecmaScript name]⟩ := by
  cases item with
  | exportDefault span start name => cases name <;> rfl
  | _ => rfl

/-- The local names of the default exports of a module, from first to last. -/
def defaultLocals (script : List Char) (items : List Item) : List String :=
  items.filterMap (Item.defaultLocal? script)

theorem footer_edits_ecmaScript (script : List Char) (n : Nat) (items : List Item) :
    ((edits script .ecmaScript n items).map (·.footer)).flatten =
      (defaultLocals script items).map (defaultFooter .ecmaScript) := by
  induction items generalizing n with
  | nil => rfl
  | cons item items ih =>
    rw [edits, editOf_ecmaScript, defaultLocals, List.filterMap_cons, List.map_append,
      List.flatten_append, ih]
    cases item.defaultLocal? script <;> rfl

theorem edits_ecmaScript_eq_nil {script : List Char} {n : Nat} {items : List Item}
    (h : ∀ item ∈ items, item.defaultLocal? script = none) : edits script .ecmaScript n items = [] := by
  induction items generalizing n with
  | nil => rfl
  | cons item items ih =>
    obtain ⟨hitem, hmore⟩ := List.forall_mem_cons.1 h
    rw [edits, editOf_ecmaScript, hitem, ih hmore]
    rfl

/-- Segments that start at `offset` have a text in place of the keywords of an item, with their line
breaks, and copy what the keywords stand before. -/
def Opens (script : List Char) (offset : Nat) (ss : List Segment) (item : Item) (text : String) :
    Prop :=
  ∃ left old copied behind right,
    ss = left ++ .replaced old (text.toList ++ old.filter (· = '\n')) ::
      .copied (copied ++ behind) :: right ∧
    offset + byteLength (sources left) = item.span.start ∧
    item.span.start + byteLength old = item.headStop ∧
    Span.text? ⟨item.headStop, item.span.stop⟩ script = some copied

theorem Opens.prepend {script : List Char} {p n : Nat} {ss : List Segment} {item : Item}
    {text : String} (h : Opens script n ss item text) (front : List Segment)
    (hn : p + byteLength (sources front) = n) : Opens script p (front ++ ss) item text := by
  obtain ⟨left, old, copied, behind, right, rfl, hstart, hstop, htext⟩ := h
  refine ⟨front ++ left, old, copied, behind, right, by simp, ?_, hstop, htext⟩
  rw [sources, List.flatMap_append, byteLength_append]
  simp only [sources] at hn hstart ⊢
  omega

/-- Each default export stands in the code, started anew. -/
theorem LaidOut.opens {script : List Char} {n : Nat} {items : List Item}
    (h : LaidOut script n items) {p : Nat} {rest : List Char} (hrest : Before ⟨0, script⟩ ⟨p, rest⟩)
    {k : Nat} {ss : List Segment} (hcut : cut p (edits script .ecmaScript k items) rest = some ss)
    {item : Item} (hitem : item ∈ items) {name : String}
    (hname : item.defaultLocal? script = some name) :
    Opens script p ss item item.defaultStart := by
  induction h generalizing p rest k ss with
  | nil => cases hitem
  | @cons n start stop first items le placed more ih =>
    have hspan := placed.span
    rw [edits, editOf_ecmaScript] at hcut
    generalize (if first.takesModule then k + 1 else k) = next at hcut
    cases hfirst : first.defaultLocal? script with
    | none =>
      rw [hfirst] at hcut
      rcases List.mem_cons.1 hitem with rfl | hitem
      · rw [hfirst] at hname
        cases hname
      · exact ih hrest hcut hitem
    | some firstName =>
      rw [hfirst] at hcut
      obtain ⟨before, old, rest', more', rfl, hbefore, hold, hmore, rfl⟩ :=
        cut_cons_eq_some_iff.1 hcut
      replace hbefore : p + byteLength before = first.span.start := hbefore
      replace hold : first.span.start + byteLength old = first.headStop := hold
      have hrest' : Before ⟨0, script⟩ ⟨first.headStop, rest'⟩ :=
        hrest.trans ⟨_, .trans (b := ⟨_, old ++ rest'⟩) ⟨rfl, hbefore.symm⟩ ⟨rfl, hold.symm⟩⟩
      rcases List.mem_cons.1 hitem with rfl | hitem
      · obtain ⟨copied, behind, right, rfl, htext⟩ :=
          more.exists_copied placed.cutsStop hrest' placed.closes hmore
        refine ⟨[.copied before], old, copied, behind, right, rfl, ?_, hold, ?_⟩
        · simpa [sources, Segment.source] using hbefore
        · rw [hspan]
          exact htext
      · refine (ih hrest' hmore hitem).prepend [.copied before, .replaced old _] ?_
        simp [sources, Segment.source]
        omega

/-! ### Compiling -/

/-- A default export is declared in its place at the top of compiled code: a function or class by a copy
of its declaration, and a value as that of a constant. -/
inductive Item.DeclaredAs (script : List Char) (ss : List Segment) (item : Item) : String → Prop
  | named {n : Name} (opens : Opens script 0 ss item "") (declares : DeclaresAt script item.headStop n)
      (exports : item.exports script = [⟨"default", .binding (textAt script n.span)⟩]) :
      Item.DeclaredAs script ss item (textAt script n.span)
  | value (opens : Opens script 0 ss item ("const " ++ componentName ++ " = "))
      (exports : item.exports script =
        [⟨"default", .expression ⟨item.headStop, item.span.stop⟩⟩]) :
      Item.DeclaredAs script ss item componentName

theorem identifier_componentName : Identifier componentName :=
  ⟨0, componentName, false, by rfl⟩

/-- **The default exports of compiled code**: each has an identifier as its local name, is declared in
its place, and is exported on a line at the end.  All else is as in the script. -/
theorem exists_compile_defaultLocals {file source : String} {made : Fragment}
    (h : compile .ecmaScript file source = .ok made) :
    ∃ items ss, parse source = .ok items ∧ sources ss = source.toList ∧
      made.code.toList = outputs ss ++ footerText (outputs ss)
        ((defaultLocals source.toList items).map (defaultFooter .ecmaScript)) ∧
      (∀ item ∈ items, ∀ name, item.defaultLocal? source.toList = some name →
        Identifier name ∧ item.DeclaredAs source.toList ss name) ∧
      (defaultLocals source.toList items = [] → made.code = source) := by
  obtain ⟨ss, footer, hdivides, rfl⟩ := compile_eq_ok_iff.1 h
  have hsources := sources_of_divides hdivides
  obtain ⟨items, hparse, hcut, rfl⟩ := hdivides
  have hstart : Before ⟨0, source.toList⟩ ⟨0, source.toList⟩ := .refl _
  refine ⟨items, ss, hparse, hsources, ?_, fun item hitem name hname => ?_, fun hnone => ?_⟩
  · rw [code_assemble, footer_edits_ecmaScript]
    rfl
  · have hopens := (laidOut_parse hparse).opens hstart hcut hitem hname
    cases item with
    | exportValue span start =>
      obtain rfl := Option.some.inj hname
      exact ⟨identifier_componentName, .value hopens rfl⟩
    | exportDefault span start n =>
      cases n with
      | none =>
        obtain rfl := Option.some.inj hname
        exact ⟨identifier_componentName, .value hopens rfl⟩
      | some n =>
        obtain rfl := Option.some.inj hname
        have hdeclares := declaresAt_of_parse hparse hitem
        exact ⟨hdeclares.identifier, .named hopens hdeclares rfl⟩
    | _ => cases hname
  · rw [edits_ecmaScript_eq_nil (List.filterMap_eq_nil_iff.1 hnone)] at hcut ⊢
    obtain rfl := Option.some.inj hcut
    refine String.toList_injective ?_
    rw [code_assemble]
    simp [front, outputs, Segment.output, footerText]

end SingleFile.Script
