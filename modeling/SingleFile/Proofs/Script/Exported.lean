import SingleFile.Proofs.Script.Declarations
import SingleFile.Proofs.Script.Rewriting

/-!
# What compiled code exports

In the older format each declaration becomes a line of statements in its place, or leaves statements
for the end of the code (`Item.inPlace`, `Item.atEnd`, `editOf_commonJS`).  `assigned` runs through
such statements and lists what they assign to `exports`: all that the declarations of the script
export, and nothing else.  That is a local name, a member of the module that is required for the
declaration, or the value of a default export (`perm_assigned_items`, `exists_compile_exports`).

The value of a default export is copied behind the assignment as it stands in the script.  A function
or a class without a name needs no semicolon there, but the assignment does: the next line may become
a part of its value (`not_assignsDefault_calledSource`).
-/

namespace SingleFile.Script

open Cursor Segment

/-! ### Exports -/

/-- What an export is: a name of the module, a member of another module or all of it, or the value
that stands in a part of the script.  Other modules are given by the text after `require`. -/
inductive ExportedValue where
  | binding (name : String)
  | member (source : Option String) (key : String)
  | whole (source : Option String)
  | expression (span : Span)
deriving DecidableEq, Repr

structure Export where
  name : String
  value : ExportedValue
deriving DecidableEq, Repr

/-- A value in a statement of compiled code. -/
inductive Operand where
  | binding (name : String)
  | member (module key : String)
  | whole (module : String)
deriving DecidableEq, Repr

/-- A statement of compiled code that stands for module syntax.  The last one is only the start of an
assignment: its value is the part of the script that follows. -/
inductive Emitted where
  | imported (module source : String) (bindings : List ImportBinding)
  | required (module source : String)
  | everything (module source : String)
  | assigned (name : String) (value : Operand)
  | declared (name : String)
  | opened (span : Span)

section Exports

variable (script : List Char)

/-- What a part of an export clause exports from another module. -/
def ExportBinding.exported (source : String) : ExportBinding → Export
  | .named inner outer => ⟨textAt script (outer.getD inner), .member (some source) (textAt script inner)⟩
  | .whole outer => ⟨textAt script outer, .whole (some source)⟩

/-- What a part of an export clause exports from the module itself. -/
def ExportBinding.exportedHere : ExportBinding → Option Export
  | .named inner outer => some ⟨textAt script (outer.getD inner), .binding (textAt script inner)⟩
  | .whole _ => none

def Item.exports : Item → List Export
  | .statement _ _ | .importing _ _ _ | .exportAll _ _ => []
  | .exportValue span start | .exportDefault span start none =>
    [⟨"default", .expression ⟨start, span.stop⟩⟩]
  | .exportDefault _ _ (some n) => [⟨"default", .binding (textAt script n.span)⟩]
  | .exportDeclaration _ _ names =>
    names.map fun n => ⟨textAt script n.span, .binding (textAt script n.span)⟩
  | .exportNamed _ bindings none => bindings.filterMap (·.exportedHere script)
  | .exportNamed _ bindings (some source) => bindings.map (·.exported script (textAt script source))

end Exports

/-! ### Statements of compiled code -/

/-- The text of a value. -/
def Operand.text : Operand → String
  | .binding name => name
  | .member module key => memberOf module key
  | .whole module => module

/-- What a value is, where the given module objects are required from the given modules. -/
def Operand.exported (modules : List (String × String)) : Operand → ExportedValue
  | .binding name => .binding name
  | .member module key => .member (modules.lookup module) key
  | .whole module => .whole (modules.lookup module)

namespace Emitted

/-- The text of a statement. -/
def text (script : List Char) : Emitted → String
  | .imported module source bindings => importText script module source bindings
  | .required module source => "var " ++ module ++ " = require(" ++ source ++ ");"
  | .everything module source => exportAllText module source
  | .assigned name value => memberOf "exports" name ++ " = " ++ value.text ++ ";"
  | .declared name => "exports." ++ name ++ " = " ++ name ++ ";"
  | .opened _ => "exports.default = "

def lineText (script : List Char) : List Emitted → String
  | [] => ""
  | e :: es => e.text script ++ String.join (es.map fun e => " " ++ e.text script)

/-- The module object that a statement makes, with the module that it is required from. -/
def module? : Emitted → Option (String × String)
  | .imported module source bindings => if bindings.isEmpty then none else some (module, source)
  | .required module source | .everything module source => some (module, source)
  | .assigned _ _ | .declared _ | .opened _ => none

/-- What a statement assigns to `exports`. -/
def export? (modules : List (String × String)) : Emitted → Option Export
  | .assigned name value => some ⟨name, value.exported modules⟩
  | .declared name => some ⟨name, .binding name⟩
  | .opened span => some ⟨"default", .expression span⟩
  | .imported _ _ _ | .required _ _ | .everything _ _ => none

end Emitted

/-- What statements assign to `exports` one after the other, where the given module objects have been
made. -/
def assigned : List (String × String) → List Emitted → List Export
  | _, [] => []
  | modules, e :: es => (e.export? modules).toList ++ assigned (e.module?.toList ++ modules) es

/-- Statements are run one after the other. -/
theorem exists_assigned_append (modules : List (String × String)) (es es' : List Emitted) :
    ∃ made, assigned modules (es ++ es') = assigned modules es ++ assigned made es' := by
  induction es generalizing modules with
  | nil => exact ⟨modules, rfl⟩
  | cons e es ih =>
    obtain ⟨made, hmade⟩ := ih (e.module?.toList ++ modules)
    refine ⟨made, ?_⟩
    rw [List.cons_append, assigned, assigned, hmade, List.append_assoc]

section Items

variable (script : List Char)

/-- What a part of an export clause becomes, where it exports from a module object. -/
def ExportBinding.assignment (module : String) : ExportBinding → Emitted
  | .named inner outer =>
    .assigned (textAt script (outer.getD inner)) (.member module (textAt script inner))
  | .whole outer => .assigned (textAt script outer) (.whole module)

/-- What a part of an export clause becomes, where it exports from the module itself. -/
def ExportBinding.assignmentHere : ExportBinding → Option Emitted
  | .named inner outer =>
    some (.assigned (textAt script (outer.getD inner)) (.binding (textAt script inner)))
  | .whole _ => none

/-- The statements that stand in the place of an item; `n` is the number of the next module object. -/
def Item.inPlace (n : Nat) : Item → List Emitted
  | .importing _ bindings source => [.imported (importName n) (textAt script source) bindings]
  | .exportValue span start | .exportDefault span start none => [.opened ⟨start, span.stop⟩]
  | .exportNamed _ bindings (some source) =>
    .required (importName n) (textAt script source) ::
      bindings.map (·.assignment script (importName n))
  | .exportAll _ source => [.everything (importName n) (textAt script source)]
  | .statement _ _ | .exportDefault _ _ (some _) | .exportDeclaration _ _ _
  | .exportNamed _ _ none => []

/-- The statements that stand at the end of the code because of an item. -/
def Item.atEnd : Item → List Emitted
  | .exportDefault _ _ (some n) => [.assigned "default" (.binding (textAt script n.span))]
  | .exportDeclaration _ _ names => names.map fun n => .declared (textAt script n.span)
  | .exportNamed _ bindings none => bindings.filterMap (·.assignmentHere script)
  | .statement _ _ | .importing _ _ _ | .exportValue _ _ | .exportDefault _ _ none
  | .exportNamed _ _ (some _) | .exportAll _ _ => []

/-- The statements that stand in the places of declarations, a line for each, with module objects
numbered from `n`. -/
def lines : Nat → List Item → List (List Emitted)
  | _, [] => []
  | n, item :: items =>
    let more := lines (if item.takesModule then n + 1 else n) items
    if item.isDeclaration then item.inPlace script n :: more else more

end Items

section Edits

variable {script : List Char} {n : Nat}

/-- The assignments of an export clause assign members of the module object. -/
theorem assigned_assignments {modules : List (String × String)} {module source : String}
    (h : modules.lookup module = some source) (bindings : List ExportBinding) :
    assigned modules (bindings.map (·.assignment script module)) =
      bindings.map (·.exported script source) := by
  induction bindings with
  | nil => rfl
  | cons b bs ih =>
    have hb : ((b.assignment script module).export? modules).toList = [b.exported script source] ∧
        (b.assignment script module).module? = none := by
      cases b with
      | named inner outer =>
        refine ⟨?_, rfl⟩
        show [Export.mk _ (.member (modules.lookup module) _)] = _
        rw [h]
        rfl
      | whole outer =>
        refine ⟨?_, rfl⟩
        show [Export.mk _ (.whole (modules.lookup module))] = _
        rw [h]
        rfl
    rw [List.map_cons, List.map_cons, assigned, hb.1, hb.2, ← ih]
    rfl

theorem assigned_assignmentsHere (modules : List (String × String)) (bindings : List ExportBinding) :
    assigned modules (bindings.filterMap (·.assignmentHere script)) =
      bindings.filterMap (·.exportedHere script) := by
  induction bindings with
  | nil => rfl
  | cons b bs ih =>
    cases b with
    | named inner outer =>
      show _ :: assigned modules (bs.filterMap (·.assignmentHere script)) = _
      rw [ih]
      rfl
    | whole outer => exact ih

theorem assigned_declared (modules : List (String × String)) (names : List Name) :
    assigned modules (names.map fun n => .declared (textAt script n.span)) =
      names.map fun n => ⟨textAt script n.span, .binding (textAt script n.span)⟩ := by
  induction names with
  | nil => rfl
  | cons n names ih =>
    rw [List.map_cons, List.map_cons, ← ih]
    rfl

/-- What stands for an item assigns what the item exports, in its place or at the end. -/
theorem assigned_item (modules modules' : List (String × String)) (n : Nat) (item : Item) :
    assigned modules (item.inPlace script n) ++ assigned modules' (item.atEnd script) =
      item.exports script := by
  cases item with
  | statement span names => rfl
  | importing span bindings source => rfl
  | exportValue span start => rfl
  | exportDefault span start name => cases name <;> rfl
  | exportDeclaration span start names => exact assigned_declared modules' names
  | exportNamed span bindings source =>
    cases source with
    | none => exact assigned_assignmentsHere modules' bindings
    | some source =>
      have hlookup : ((importName n, textAt script source) :: modules).lookup (importName n) =
          some (textAt script source) := List.lookup_cons_self
      show assigned _ (bindings.map _) ++ [] = _
      rw [List.append_nil]
      exact assigned_assignments hlookup bindings
  | exportAll span source => rfl

/-- What is listed without another module is assigned at the end of the code. -/
theorem map_exportAssignment {bindings : List ExportBinding}
    (hnamed : ∀ b ∈ bindings, ∃ inner outer, b = .named inner outer) :
    bindings.map (exportAssignment script fun name => name.getD "*") =
      (bindings.filterMap (·.assignmentHere script)).map (·.text script) := by
  induction bindings with
  | nil => rfl
  | cons b bs ih =>
    obtain ⟨inner, outer, rfl⟩ := hnamed b List.mem_cons_self
    rw [List.map_cons, ih fun b hb => hnamed b (List.mem_cons_of_mem _ hb)]
    rfl

/-- What is listed with another module is assigned in place. -/
theorem map_exportAssignment_required (module : String) (bindings : List ExportBinding) :
    bindings.map (fun b => " " ++ exportAssignment script
        (fun
          | some name => memberOf module name
          | none => module) b) =
      (bindings.map (·.assignment script module)).map fun e => " " ++ e.text script := by
  rw [List.map_map]
  refine List.map_congr_left fun b _ => ?_
  cases b <;> rfl

/-- A declaration is replaced by the line of statements that stand for it. -/
theorem editOf_commonJS {item : Item} (hitem : item.isDeclaration = true)
    (hwritten : item.Written script) (n : Nat) :
    editOf script .commonJS n item = some ⟨⟨item.span.start, item.headStop⟩,
      Emitted.lineText script (item.inPlace script n), (item.atEnd script).map (·.text script)⟩ := by
  have hsingle (e : Emitted) : Emitted.lineText script [e] = e.text script := String.append_empty
  cases item with
  | statement span names => cases hitem
  | importing span bindings source =>
    rw [Item.inPlace, hsingle]
    rfl
  | exportValue span start =>
    rw [Item.inPlace, hsingle]
    rfl
  | exportDefault span start name =>
    cases name with
    | none =>
      rw [Item.inPlace, hsingle]
      rfl
    | some name =>
      have hstart : memberOf "exports" "default" ++ " = " = "exports.default = " := by decide
      have hfooter : "exports.default = " ++ textAt script name.span ++ ";" =
          (Emitted.assigned "default" (.binding (textAt script name.span))).text script := by
        rw [← hstart]
        rfl
      show some (Edit.mk _ _ ["exports.default = " ++ textAt script name.span ++ ";"]) = _
      rw [hfooter]
      rfl
  | exportDeclaration span start names =>
    rw [Item.atEnd, List.map_map]
    rfl
  | exportNamed span bindings source =>
    cases source with
    | none =>
      have hnamed : ∀ b ∈ bindings, ∃ inner outer, b = .named inner outer := by
        cases hwritten with
        | exportNamed opens lists =>
          cases lists with
          | clause opens parts behind => exact parts.named
      show some (Edit.mk _ _ (bindings.map (exportAssignment script fun name => name.getD "*"))) = _
      rw [map_exportAssignment hnamed]
      rfl
    | some source =>
      rw [Item.inPlace, Emitted.lineText, ← map_exportAssignment_required]
      rfl
  | exportAll span source =>
    rw [Item.inPlace, hsingle]
    rfl

theorem flatten_lines_cons (script : List Char) (n : Nat) (item : Item) (items : List Item) :
    ∃ next, (lines script n (item :: items)).flatten =
      item.inPlace script n ++ (lines script next items).flatten := by
  refine ⟨if item.takesModule then n + 1 else n, ?_⟩
  cases item <;> rfl

/-- What stands for the items of a module assigns what they export. -/
theorem perm_assigned_items (modules modules' : List (String × String)) (n : Nat)
    (items : List Item) :
    (assigned modules (lines script n items).flatten ++
      assigned modules' (items.flatMap (Item.atEnd script))).Perm
        (items.flatMap (Item.exports script)) := by
  induction items generalizing modules modules' n with
  | nil => exact .nil
  | cons item items ih =>
    obtain ⟨next, hlines⟩ := flatten_lines_cons script n item items
    obtain ⟨made, hmade⟩ := exists_assigned_append modules (item.inPlace script n)
      (lines script next items).flatten
    obtain ⟨made', hmade'⟩ := exists_assigned_append modules' (item.atEnd script)
      (items.flatMap (Item.atEnd script))
    rw [hlines, List.flatMap_cons, List.flatMap_cons, hmade, hmade', List.append_assoc,
      ← assigned_item modules modules' n item, List.append_assoc]
    refine .append_left _ ?_
    exact (List.perm_append_comm_assoc _ _ _).trans (.append_left _ (ih made made' next))

/-- The lines at the end of the code are the statements that items leave for it. -/
theorem footer_edits {items : List Item} (hwritten : ∀ item ∈ items, item.Written script) (n : Nat) :
    ((edits script .commonJS n items).map (·.footer)).flatten =
      (items.flatMap (Item.atEnd script)).map (·.text script) := by
  induction items generalizing n with
  | nil => rfl
  | cons item items ih =>
    have hitem := hwritten item List.mem_cons_self
    have hmore := ih (fun x hx => hwritten x (List.mem_cons_of_mem item hx))
      (if item.takesModule then n + 1 else n)
    rw [edits, List.flatMap_cons, List.map_append, List.map_append, List.flatten_append, hmore]
    congr 1
    cases hdeclaration : item.isDeclaration with
    | false =>
      cases item with
      | statement span names => rfl
      | _ => cases hdeclaration
    | true =>
      rw [editOf_commonJS hdeclaration hitem n]
      exact List.append_nil _

end Edits

/-! ### Segments -/

/-- Segments that start at `offset` carry lines of statements: each line stands in place of one that
is replaced, with the line breaks of what stood there, and the value of an assignment that is only
started is copied right behind it. -/
inductive Segment.Carries (script : List Char) : Nat → List Segment → List (List Emitted) → Prop
  | nil (offset : Nat) : Carries script offset [] []
  | copied {offset : Nat} {text : List Char} {ss : List Segment} {ls : List (List Emitted)}
      (more : Carries script (offset + byteLength text) ss ls) :
      Carries script offset (.copied text :: ss) ls
  | replaced {offset : Nat} {old : List Char} {ss : List Segment} {line : List Emitted}
      {ls : List (List Emitted)}
      (value : ∀ span, .opened span ∈ line → span.start = offset + byteLength old ∧
        ∃ text rest more, ss = .copied (text ++ rest) :: more ∧ span.text? script = some text)
      (more : Carries script (offset + byteLength old) ss ls) :
      Carries script offset
        (.replaced old ((Emitted.lineText script line).toList ++ old.filter (· = '\n')) :: ss)
        (line :: ls)

/-- An assignment that is only started is that of the value of a default export. -/
theorem eq_of_opened_mem_inPlace {script : List Char} {n : Nat} {item : Item} {span : Span}
    (h : .opened span ∈ item.inPlace script n) : span = ⟨item.headStop, item.span.stop⟩ := by
  cases item with
  | statement s names => cases h
  | importing s bindings source => cases List.mem_singleton.1 h
  | exportValue s start =>
    cases List.mem_singleton.1 h
    rfl
  | exportDefault s start name =>
    cases name with
    | none =>
      cases List.mem_singleton.1 h
      rfl
    | some name => cases h
  | exportDeclaration s start names => cases h
  | exportNamed s bindings source =>
    cases source with
    | none => cases h
    | some source =>
      rcases List.mem_cons.1 h with h | h
      · cases h
      · obtain ⟨b, -, hb⟩ := List.mem_map.1 h
        cases b <;> cases hb
  | exportAll s source => cases List.mem_singleton.1 h

/-- Behind the keywords of an item, up to the items that follow it, the script is copied. -/
theorem LaidOut.exists_copied {script rest : List Char} {head stop k : Nat} {items : List Item}
    {format : ModuleFormat} {ss : List Segment} (h : LaidOut script stop items)
    (hstop : Cuts script stop) (hrest : Before ⟨0, script⟩ ⟨head, rest⟩) (hle : head ≤ stop)
    (hcut : cut head (edits script format k items) rest = some ss) :
    ∃ text behind more, ss = .copied (text ++ behind) :: more ∧
      Span.text? ⟨head, stop⟩ script = some text := by
  obtain ⟨_, hcut', ⟨u, v, more, rfl, hu, -⟩, -⟩ := h.exists_cut hstop hrest hle format k
  obtain rfl := Option.some.inj (hcut.symm.trans hcut')
  obtain ⟨x, hx, hxsize⟩ := hrest
  have hscript : script = x ++ u ++ (v ++ sources more) := by
    rw [show script = x ++ rest from hx, ← sources_of_cut hcut]
    simp [sources, Segment.source]
  exact ⟨u, v, more, rfl, Span.text?_eq_some hscript (hxsize.trans (Nat.zero_add _)).symm hu⟩

/-- The segments of a script carry the lines that stand for its declarations. -/
theorem LaidOut.carries {script : List Char} {n : Nat} {items : List Item}
    (h : LaidOut script n items) (hwritten : ∀ item ∈ items, item.Written script)
    (hn : Cuts script n) {p : Nat} {rest : List Char} (hrest : Before ⟨0, script⟩ ⟨p, rest⟩)
    (hp : p ≤ n) (k : Nat) {ss : List Segment}
    (hcut : cut p (edits script .commonJS k items) rest = some ss) :
    Carries script p ss (lines script k items) := by
  induction h generalizing p rest k ss with
  | nil n =>
    obtain rfl := Option.some.inj hcut
    exact .copied (.nil _)
  | @cons n start stop item items le placed more ih =>
    have hitem := hwritten item List.mem_cons_self
    replace ih := ih fun x hx => hwritten x (List.mem_cons_of_mem item hx)
    cases hdeclaration : item.isDeclaration with
    | false =>
      have hclose := placed.closes
      have hstart := placed.start_le
      cases item with
      | statement span names => exact ih placed.cutsStop hrest (by omega) k hcut
      | _ => cases hdeclaration
    | true =>
      have hspan := placed.span
      rw [edits, editOf_commonJS hdeclaration hitem k] at hcut
      have hlines : lines script k (item :: items) = item.inPlace script k ::
          lines script (if item.takesModule then k + 1 else k) items := if_pos hdeclaration
      rw [hlines]
      generalize (if item.takesModule then k + 1 else k) = next at hcut
      obtain ⟨before, old, rest', more', rfl, hbefore, hold, hmore, rfl⟩ :=
        cut_cons_eq_some_iff.1 hcut
      replace hbefore : p + byteLength before = item.span.start := hbefore
      replace hold : item.span.start + byteLength old = item.headStop := hold
      have hoffset : p + byteLength before + byteLength old = item.headStop := by omega
      have hrest' : Before ⟨0, script⟩ ⟨item.headStop, rest'⟩ :=
        hrest.trans ⟨_, .trans (b := ⟨_, old ++ rest'⟩) ⟨rfl, hbefore.symm⟩ ⟨rfl, hold.symm⟩⟩
      refine .copied (.replaced ?_ ?_)
      · intro span hopened
        obtain rfl := eq_of_opened_mem_inPlace hopened
        obtain ⟨text, behind, later, rfl, htext⟩ :=
          more.exists_copied placed.cutsStop hrest' placed.closes hmore
        refine ⟨hoffset.symm, text, behind, later, rfl, ?_⟩
        rw [hspan]
        exact htext
      · rw [hoffset]
        exact ih placed.cutsStop hrest' placed.closes next hmore

/-! ### Compiling -/

/-- What compiled code exports, for a script with the given items: the statements that stand for the
items are carried by the segments of the code, and stand behind them on lines of their own.  One after
the other they assign to `exports` what the items export, each of it once, and nothing else. -/
def ExportsItems (script : List Char) (items : List Item) (code : List Char) : Prop :=
  ∃ ss, sources ss = script ∧ Carries script 0 ss (lines script 1 items) ∧
    code = front .commonJS ++ outputs ss ++ footerText (front .commonJS ++ outputs ss)
      ((items.flatMap (Item.atEnd script)).map (Emitted.text script)) ∧
    (assigned [] ((lines script 1 items).flatten ++ items.flatMap (Item.atEnd script))).Perm
      (items.flatMap (Item.exports script))

/-- **A script that the parser accepts is compiled to code that exports what the script exports**: all
that is written behind its keywords `export`, with the names in patterns of any depth. -/
theorem exists_compile_exports {source : String} {items : List Item} (h : parse source = .ok items)
    (file : String) :
    ∃ made, compile .commonJS file source = .ok made ∧
      ExportsItems source.toList items made.code.toList ∧
      ∀ item ∈ items, item.Written source.toList := by
  have hwritten := written_of_parse h
  obtain ⟨ss, footer, hdivides, hrewrites⟩ := exists_divides h .commonJS
  refine ⟨_, compile_eq_ok_iff.2 ⟨ss, footer, hdivides, rfl⟩, ?_, hwritten⟩
  obtain ⟨items', hparse, hcut, rfl⟩ := hdivides
  obtain rfl := Except.ok.inj (h.symm.trans hparse)
  have hstart : Before ⟨0, source.toList⟩ ⟨0, source.toList⟩ := .refl _
  obtain ⟨made, hmade⟩ := exists_assigned_append [] (lines source.toList 1 items).flatten
    (items.flatMap (Item.atEnd source.toList))
  refine ⟨ss, hrewrites.source, ?_, ?_, ?_⟩
  · exact (laidOut_parse h).carries hwritten ⟨_, hstart⟩ hstart (Nat.le_refl 0) 1 hcut
  · rw [code_assemble, footer_edits hwritten 1]
  · rw [hmade]
    exact perm_assigned_items [] made 1 items

/-- A script with a pattern in a pattern and with an export from another module. -/
def nestedSource : String := "export let \x7b a, b: [c] \x7d = f\nexport \x7b k \x7d from 'm'\n"

def nestedItems : List Item :=
  [.exportDeclaration ⟨0, 28⟩ 7 [⟨"a", ⟨13, 14⟩⟩, ⟨"c", ⟨20, 21⟩⟩],
    .exportNamed ⟨29, 50⟩ [.named ⟨38, 39⟩ none] (some ⟨47, 50⟩)]

theorem parse_nestedSource : parse nestedSource = .ok nestedItems := by
  decide +kernel

theorem exists_compile_exports_nestedSource : parse nestedSource = .ok nestedItems ∧
    ∃ made, compile .commonJS "/app/A.vue" nestedSource = .ok made ∧
      ExportsItems nestedSource.toList nestedItems made.code.toList ∧
      ∀ item ∈ nestedItems, item.Written nestedSource.toList :=
  ⟨parse_nestedSource, exists_compile_exports parse_nestedSource "/app/A.vue"⟩

/-! ### Values that go on -/

/-- The default exports of a script are assigned by statements of the code that end with their
values. -/
def AssignsDefault (source code : String) : Prop :=
  ∃ items kept, parse source = .ok items ∧ parse code = .ok kept ∧
    ∀ item ∈ items, ∀ span, ⟨"default", .expression span⟩ ∈ item.exports source.toList →
      ∃ stop ∈ ["", ";"], "exports.default = " ++ textAt source.toList span ++ stop ∈
        statementTexts code.toList kept

/-- A script with a statement in parentheses behind a function without a name. -/
def calledSource : String := "export default function () \x7b\x7d\n(y)\n"

/-- In the code the function is called, and what it gives is exported. -/
theorem not_assignsDefault_calledSource :
    ∃ made, compile .commonJS "/app/A.vue" calledSource = .ok made ∧
      ¬ AssignsDefault calledSource made.code := by
  have hparse : parse calledSource =
      .ok [.exportDefault ⟨0, 29⟩ 15 none, .statement ⟨30, 33⟩ []] := by decide +kernel
  have hcompiled : (compiledText? .commonJS calledSource).any (fun cs =>
      decide (statements? (String.ofList cs) = some
        ["\"use strict\";", "Object.defineProperty(exports, \"__esModule\", \x7b value: true \x7d);",
          "exports.default = function () \x7b\x7d\n(y)"])) = true := by decide +kernel
  have htext : textAt calledSource.toList ⟨15, 29⟩ = "function () \x7b\x7d" := by decide +kernel
  obtain ⟨made, hmade, hcalled⟩ := exists_compile_of_any hcompiled "/app/A.vue"
  refine ⟨made, hmade, ?_⟩
  rintro ⟨items, kept, hitems, hkept, hassigns⟩
  obtain rfl := Except.ok.inj (hparse.symm.trans hitems)
  have hcalled := of_decide_eq_true hcalled
  rw [String.ofList_toList, statements?_eq hkept] at hcalled
  obtain ⟨stop, hstop, hmem⟩ := hassigns _ List.mem_cons_self ⟨15, 29⟩ List.mem_cons_self
  rw [htext, Option.some.inj hcalled] at hmem
  revert stop
  decide

end SingleFile.Script
