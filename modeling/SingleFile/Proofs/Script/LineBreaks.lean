import Mathlib.Algebra.GroupWithZero.Nat
import SingleFile.Proofs.Script.ImportedNames

/-!
# The lines of compiled code

A replacement ends with the line breaks of the text that it stands for, but before them it repeats
parts of this text: where a string among them goes on in another line, its line breaks are there
twice (`Item.added`, `textBreaks_editOf`).  Segments keep track of this item by item
(`Segment.Lines`, `LaidOut.lines`).  So **`exists_compile_lines`** says on which line of the code a
copied character stands: on its own line, behind as many as the declarations before it add.
-/

namespace SingleFile.Script

open Cursor Segment

/-! ### Line breaks of texts -/

/-- How many line breaks a text has. -/
def textBreaks (s : String) : Nat := breaks s.toList

theorem textBreaks_append (s t : String) : textBreaks (s ++ t) = textBreaks s + textBreaks t := by
  rw [textBreaks, String.toList_append, breaks_append]
  rfl

theorem textBreaks_eq_zero {s : String} (h : '\n' ∉ s.toList) : textBreaks s = 0 :=
  breaks_eq_zero_iff.2 h

theorem Identifier.textBreaks {s : String} (h : Identifier s) : textBreaks s = 0 :=
  textBreaks_eq_zero h.oneLine

theorem breaks_flatMap {α : Type} (f : α → List Char) (as : List α) :
    breaks (as.flatMap f) = (as.map fun a => breaks (f a)).sum := by
  induction as with
  | nil => rfl
  | cons a as ih => rw [List.flatMap_cons, breaks_append, ih, List.map_cons, List.sum_cons]

theorem textBreaks_join (ss : List String) :
    textBreaks (String.join ss) = (ss.map textBreaks).sum := by
  rw [textBreaks, String.toList_join, breaks_flatMap]
  rfl

theorem textBreaks_intercalate {mark : String} (hmark : textBreaks mark = 0) (ss : List String) :
    textBreaks (mark.intercalate ss) = (ss.map textBreaks).sum := by
  rw [textBreaks, String.toList_intercalate]
  induction ss with
  | nil => rfl
  | cons s ss ih =>
    cases ss with
    | nil => simp [textBreaks]
    | cons t ss =>
      rw [List.map_cons, List.map_cons, List.intercalate_cons_cons, ← List.map_cons (f := String.toList),
        breaks_append, breaks_append, ih, show breaks mark.toList = 0 from hmark, List.map_cons,
        List.sum_cons]
      rfl

/-- Only the line breaks of a text are left of it. -/
theorem breaks_filter (cs : List Char) : breaks (cs.filter (· = '\n')) = breaks cs := by
  induction cs with
  | nil => rfl
  | cons c r ih =>
    by_cases hc : c = '\n'
    · rw [List.filter_cons_of_pos (by simpa using hc), breaks, breaks, if_pos hc, if_pos hc, ih]
    · rw [List.filter_cons_of_neg (by simpa using hc), breaks, if_neg hc, ih]

theorem toList_importName (n : Nat) : (importName n).toList = "_import".toList ++ Nat.toDigits 10 n := by
  have hdigits : (toString n).toList = Nat.toDigits 10 n := Nat.toList_repr
  rw [importName, String.toList_append, hdigits]

theorem notMem_importName {c : Char} (hc : c ∉ "_import".toList) (hdigit : ¬ c.isDigit = true)
    (n : Nat) : c ∉ (importName n).toList := by
  rw [toList_importName, List.mem_append, not_or]
  refine ⟨hc, ?_⟩
  intro hmem
  exact hdigit (Nat.isDigit_of_mem_toDigits (by omega) (by omega) hmem)

theorem textBreaks_importName (n : Nat) : textBreaks (importName n) = 0 :=
  textBreaks_eq_zero (notMem_importName (by decide) (by decide) n)

theorem textBreaks_memberOf (object name : String) :
    textBreaks (memberOf object name) = textBreaks object + textBreaks name := by
  have hmarks : textBreaks "[" = 0 ∧ textBreaks "]" = 0 ∧ textBreaks "." = 0 := by decide
  unfold memberOf
  split <;> simp only [textBreaks_append, hmarks] <;> omega

theorem sum_map_filterMap {α β : Type} (f : α → Option β) (g : β → Nat) (as : List α) :
    ((as.filterMap f).map g).sum = (as.map fun a => ((f a).map g).getD 0).sum := by
  induction as with
  | nil => rfl
  | cons a as ih =>
    rw [List.map_cons, List.sum_cons, ← ih, List.filterMap_cons]
    cases f a with
    | none => exact (Nat.zero_add _).symm
    | some b => rw [List.map_cons, List.sum_cons, Option.map_some, Option.getD_some]

/-! ### What replacements repeat -/

/-- The part of a binding that names what is imported, where that is written. -/
def ImportBinding.imported? : ImportBinding → Option Span
  | .named imported _ => imported
  | .default _ | .whole _ => none

/-- The parts of an export clause whose texts are repeated: the name of the other module, and the one
under which it is exported. -/
def ExportBinding.repeated : ExportBinding → List Span
  | .named inner outer => [outer.getD inner, inner]
  | .whole outer => [outer]

/-- The parts of an item whose texts its replacement repeats, and which may be strings. -/
def Item.repeated : Item → List Span
  | .importing _ bindings source => source :: bindings.filterMap (·.imported?)
  | .exportNamed _ bindings (some source) => source :: bindings.flatMap (·.repeated)
  | .exportAll _ source => [source]
  | .statement _ _ | .exportValue _ _ | .exportDefault _ _ _ | .exportDeclaration _ _ _
  | .exportNamed _ _ none => []

section Repeated

variable (script : List Char)

/-- How many line breaks the texts of spans have. -/
def spanBreaks (spans : List Span) : Nat := (spans.map fun s => textBreaks (textAt script s)).sum

theorem spanBreaks_cons (s : Span) (spans : List Span) :
    spanBreaks script (s :: spans) = textBreaks (textAt script s) + spanBreaks script spans := by
  rw [spanBreaks, List.map_cons, List.sum_cons]
  rfl

theorem spanBreaks_append (spans spans' : List Span) :
    spanBreaks script (spans ++ spans') = spanBreaks script spans + spanBreaks script spans' := by
  rw [spanBreaks, List.map_append, List.sum_append]
  rfl

theorem spanBreaks_flatMap {α : Type} (f : α → List Span) (as : List α) :
    spanBreaks script (as.flatMap f) = (as.map fun a => spanBreaks script (f a)).sum := by
  induction as with
  | nil => rfl
  | cons a as ih => rw [List.flatMap_cons, spanBreaks_append, ih, List.map_cons, List.sum_cons]

/-- How many line breaks the replacement of an item has more than the text that it stands for. -/
def Item.added (format : ModuleFormat) (item : Item) : Nat :=
  match format with
  | .commonJS => spanBreaks script item.repeated
  | .ecmaScript => 0

end Repeated

section Edits

variable {script : List Char}

/-- The names that are taken out of a module object. -/
theorem textBreaks_takenNames {module : String} (hmodule : textBreaks module = 0)
    (named : List String) :
    textBreaks (if named.isEmpty then "" else
      " var \x7b " ++ ", ".intercalate named ++ " \x7d = " ++ module ++ ";") =
        (named.map textBreaks).sum := by
  split
  · next hempty =>
    rw [List.isEmpty_iff.1 hempty]
    rfl
  · simp (disch := decide) only [textBreaks_append, textBreaks_intercalate, textBreaks_eq_zero,
      hmodule]
    omega

/-- What an import becomes repeats the string behind `from` and the names that stand before `as`. -/
theorem textBreaks_importText {module source : String} {bindings : List ImportBinding}
    (hmodule : textBreaks module = 0) (hbindings : BindIdentifiers script bindings) :
    textBreaks (importText script module source bindings) =
      textBreaks source + spanBreaks script (bindings.filterMap (·.imported?)) := by
  have hlocal (b : ImportBinding) (hb : b ∈ bindings) :
      textBreaks (textAt script b.localName.span) = 0 := (hbindings b hb).textBreaks
  unfold importText
  split
  · next hempty =>
    obtain rfl := List.isEmpty_iff.1 hempty
    simp (disch := decide) only [textBreaks_append, textBreaks_eq_zero]
    show 0 + textBreaks source + 0 = textBreaks source + 0
    omega
  · have hzero {f : ImportBinding → Nat} (hf : ∀ b ∈ bindings, f b = 0) :
        (bindings.map f).sum = 0 :=
      List.sum_eq_zero_iff_forall_eq_nat.2 (List.forall_mem_map.2 hf)
    dsimp only
    simp (disch := decide) only [textBreaks_append, textBreaks_eq_zero, hmodule,
      textBreaks_takenNames hmodule, textBreaks_join, List.map_map]
    rw [hzero, spanBreaks, sum_map_filterMap, sum_map_filterMap]
    · simp only [Nat.zero_add, Nat.add_zero, Nat.add_left_cancel_iff]
      refine congrArg List.sum (List.map_congr_left fun b hb => ?_)
      have hname := hlocal b hb
      cases b with
      | named imported n =>
        cases imported with
        | none => exact hname
        | some i =>
          show textBreaks (textAt script i ++ ": " ++ textAt script n.span) = _
          rw [textBreaks_append, textBreaks_append, show textBreaks (textAt script n.span) = 0 from hname]
          rfl
      | _ => rfl
    · intro b hb
      have hname := hlocal b hb
      cases b with
      | named imported n => rfl
      | default n | whole n =>
        replace hname : textBreaks (textAt script n.span) = 0 := hname
        dsimp only [Function.comp_apply]
        generalize textAt script n.span = name at hname ⊢
        simp (disch := decide) only [textBreaks_append, textBreaks_eq_zero, hmodule, hname]

theorem textBreaks_exportAssignment {value : Option String → String}
    (hnamed : ∀ name, textBreaks (value (some name)) = textBreaks name)
    (hwhole : textBreaks (value none) = 0) (b : ExportBinding) :
    textBreaks (exportAssignment script value b) = spanBreaks script b.repeated := by
  have hnil : spanBreaks script [] = 0 := rfl
  cases b with
  | named inner outer =>
    simp (disch := decide) only [exportAssignment, textBreaks_append, textBreaks_memberOf,
      textBreaks_eq_zero, hnamed, ExportBinding.repeated, spanBreaks_cons, hnil]
    omega
  | whole outer =>
    simp (disch := decide) only [exportAssignment, textBreaks_append, textBreaks_memberOf,
      textBreaks_eq_zero, hwhole, ExportBinding.repeated, spanBreaks_cons, hnil]
    omega

/-- Exports from another module repeat its name and the parts of the clause. -/
theorem textBreaks_exportsFrom {module source : String} {value : Option String → String}
    (hmodule : textBreaks module = 0)
    (hnamed : ∀ name, textBreaks (value (some name)) = textBreaks name)
    (hwhole : textBreaks (value none) = 0) (bindings : List ExportBinding) :
    textBreaks ("var " ++ module ++ " = require(" ++ source ++ ");" ++
        String.join (bindings.map fun b => " " ++ exportAssignment script value b)) =
      textBreaks source + spanBreaks script (bindings.flatMap (·.repeated)) := by
  simp (disch := decide) only [textBreaks_append, textBreaks_eq_zero, hmodule, textBreaks_join,
    List.map_map]
  rw [spanBreaks_flatMap]
  refine congrArg₂ (· + ·) (by omega) (congrArg List.sum (List.map_congr_left fun b _ => ?_))
  dsimp only [Function.comp_apply]
  rw [textBreaks_append, textBreaks_exportAssignment hnamed hwhole]
  exact Nat.zero_add _

theorem textBreaks_exportAllText {module source : String} (hmodule : textBreaks module = 0) :
    textBreaks (exportAllText module source) = textBreaks source := by
  simp (disch := decide) only [exportAllText, textBreaks_append, hmodule, textBreaks_eq_zero]
  omega

/-- The text of an edit has the line breaks of the parts that it repeats. -/
theorem textBreaks_editOf {format : ModuleFormat} {n : Nat} {item : Item}
    (himports : item.ImportsIdentifiers script) {e : Edit}
    (h : editOf script format n item = some e) : textBreaks e.text = item.added script format := by
  have hmodule := textBreaks_importName n
  have hstart : textBreaks ("const " ++ componentName ++ " = ") = 0 := by decide
  cases format with
  | ecmaScript =>
    rw [editOf_ecmaScript] at h
    obtain ⟨name, -, rfl⟩ := Option.map_eq_some_iff.1 h
    cases item with
    | exportDefault span start name =>
      cases name with
      | none => exact hstart
      | some name => rfl
    | _ => exact hstart
  | commonJS =>
    show _ = spanBreaks script item.repeated
    have hdefault : textBreaks "exports.default = " = 0 := by decide
    cases item with
    | statement span names => cases h
    | importing span bindings source =>
      obtain rfl := Option.some.inj h
      exact (textBreaks_importText hmodule (himports _ _ _ rfl)).trans
        (spanBreaks_cons script _ _).symm
    | exportValue span start =>
      obtain rfl := Option.some.inj h
      exact hdefault
    | exportDefault span start name =>
      cases name with
      | none =>
        obtain rfl := Option.some.inj h
        exact hdefault
      | some name =>
        obtain rfl := Option.some.inj h
        rfl
    | exportDeclaration span start names =>
      obtain rfl := Option.some.inj h
      rfl
    | exportNamed span bindings source =>
      cases source with
      | none =>
        obtain rfl := Option.some.inj h
        rfl
      | some source =>
        obtain rfl := Option.some.inj h
        rw [Item.repeated, spanBreaks_cons]
        refine textBreaks_exportsFrom hmodule (fun name => ?_) hmodule bindings
        rw [textBreaks_memberOf, hmodule, Nat.zero_add]
    | exportAll span source =>
      obtain rfl := Option.some.inj h
      exact textBreaks_exportAllText hmodule

end Edits

/-! ### Segments -/

/-- How many line breaks the code has in front of a script. -/
def headerLines : ModuleFormat → Nat
  | .commonJS => 2
  | .ecmaScript => 0

theorem breaks_front (format : ModuleFormat) : breaks (front format) = headerLines format := by
  cases format <;> decide

/-- How many line breaks the replacements of the items add that start before an offset. -/
def addedBefore (script : List Char) (format : ModuleFormat) (items : List Item) (offset : Nat) : Nat :=
  ((items.filter (·.span.start < offset)).map (·.added script format)).sum

section Added

variable {script : List Char} {format : ModuleFormat} {item : Item} {items : List Item} {offset : Nat}

theorem addedBefore_cons_of_lt (h : item.span.start < offset) :
    addedBefore script format (item :: items) offset =
      item.added script format + addedBefore script format items offset := by
  rw [addedBefore, List.filter_cons_of_pos (by simpa using h), List.map_cons, List.sum_cons]
  rfl

theorem addedBefore_cons_of_added (h : item.added script format = 0) :
    addedBefore script format (item :: items) offset = addedBefore script format items offset := by
  by_cases hlt : item.span.start < offset
  · rw [addedBefore_cons_of_lt hlt, h, Nat.zero_add]
  · rw [addedBefore, List.filter_cons_of_neg (by simpa using hlt)]
    rfl

theorem addedBefore_eq_zero (h : ∀ item ∈ items, offset ≤ item.span.start) :
    addedBefore script format items offset = 0 := by
  rw [addedBefore, List.filter_eq_nil_iff.2]
  · rfl
  · intro item hitem
    simpa using h item hitem

/-- What is not rewritten adds nothing. -/
theorem added_of_editOf {n : Nat} (h : editOf script format n item = none) :
    item.added script format = 0 := by
  cases format with
  | ecmaScript => rfl
  | commonJS =>
    cases item with
    | statement span names => rfl
    | exportDefault span start name => cases name <;> cases h
    | exportNamed span bindings source => cases source <;> cases h
    | _ => cases h

end Added

theorem Segment.copies_cons {s : Segment} {ss : List Segment} {before made : List Char} {c : Char} :
    Copies (s :: ss) before made c ↔
      (∃ a b, s = .copied (a ++ c :: b) ∧ before = a ∧ made = a) ∨
      ∃ before' made', Copies ss before' made' c ∧ before = s.source ++ before' ∧
        made = s.output ++ made' := by
  constructor
  · rintro ⟨front, a, b, back, hss, rfl, rfl⟩
    cases front with
    | nil =>
      obtain ⟨rfl, rfl⟩ := List.cons.inj hss
      exact .inl ⟨a, b, rfl, rfl, rfl⟩
    | cons t front =>
      obtain ⟨rfl, rfl⟩ := List.cons.inj hss
      refine .inr ⟨_, _, ⟨front, a, b, back, rfl, rfl, rfl⟩, ?_, ?_⟩ <;> simp [sources, outputs]
  · rintro (⟨a, b, rfl, rfl, rfl⟩ | ⟨_, _, ⟨front, a, b, back, rfl, rfl, rfl⟩, rfl, rfl⟩)
    · exact ⟨[], _, b, ss, rfl, rfl, rfl⟩
    · refine ⟨s :: front, a, b, back, rfl, ?_, ?_⟩ <;> simp [sources, outputs]

theorem LaidOut.le_start {script : List Char} {n : Nat} {items : List Item}
    (h : LaidOut script n items) : ∀ item ∈ items, n ≤ item.span.start := by
  induction h with
  | nil => simp
  | @cons n start stop item items le placed more ih =>
    have hstart : item.span.start = start := congrArg Span.start placed.span
    have hopens := placed.start_le
    have hcloses := placed.closes
    refine List.forall_mem_cons.2 ⟨by omega, fun item hitem => ?_⟩
    have hmore := ih item hitem
    omega

/-- What the segments of a script have to do with its lines, from `offset` on: each replacement has
the line breaks of what it replaces and those that its item adds. -/
structure Segment.Lines (script : List Char) (format : ModuleFormat) (offset : Nat)
    (items : List Item) (ss : List Segment) : Prop where
  replaced : ∀ left old new right, ss = left ++ .replaced old new :: right → ∃ item ∈ items,
    item.span.start = offset + byteLength (sources left) ∧
      breaks new = breaks old + item.added script format
  added : ∀ item ∈ items, item.added script format ≠ 0 → ∃ left old new right,
    ss = left ++ .replaced old new :: right ∧ breaks new = breaks old + item.added script format
  copied : ∀ before made c, Copies ss before made c → breaks made =
    breaks before + addedBefore script format items (offset + byteLength before)

namespace Segment.Lines

variable {script : List Char} {format : ModuleFormat} {p stop : Nat} {item : Item}
  {items : List Item} {ss : List Segment}

theorem nil (rest : List Char) : Lines script format p [] [.copied rest] := by
  refine ⟨fun left old new right hss => ?_, by simp, fun before made c hcopies => ?_⟩
  · cases left <;> simp at hss
  · rcases copies_cons.1 hcopies with ⟨a, b, -, rfl, rfl⟩ | ⟨_, _, ⟨left, _, _, _, hss, -⟩, -⟩
    · rfl
    · cases left <;> cases hss

/-- An item that adds nothing may stand in front. -/
theorem cons_kept (h : Lines script format p items ss) (hnone : item.added script format = 0) :
    Lines script format p (item :: items) ss := by
  refine ⟨fun left old new right hss => ?_, ?_, fun before made c hcopies => ?_⟩
  · obtain ⟨x, hx, hxlines⟩ := h.replaced left old new right hss
    exact ⟨x, List.mem_cons_of_mem item hx, hxlines⟩
  · exact List.forall_mem_cons.2 ⟨fun hadds => absurd hnone hadds, h.added⟩
  · rw [addedBefore_cons_of_added hnone]
    exact h.copied before made c hcopies

/-- An item that is replaced, behind what is copied in front of it. -/
theorem cons_replaced {copied old new : List Char} (h : Lines script format stop items ss)
    (hcopied : p + byteLength copied = item.span.start)
    (hold : item.span.start + byteLength old = stop) (hlt : item.span.start < stop)
    (hlater : ∀ x ∈ items, stop ≤ x.span.start)
    (hnew : breaks new = breaks old + item.added script format) :
    Lines script format p (item :: items) (.copied copied :: .replaced old new :: ss) := by
  refine ⟨fun left gone made right hss => ?_, ?_, fun before made c hcopies => ?_⟩
  · match left with
    | [] => cases hss
    | [_] =>
      simp only [List.cons_append, List.nil_append, List.cons.injEq, Segment.replaced.injEq] at hss
      obtain ⟨rfl, ⟨rfl, rfl⟩, rfl⟩ := hss
      refine ⟨item, List.mem_cons_self, ?_, hnew⟩
      simpa [sources, Segment.source] using hcopied.symm
    | _ :: _ :: left =>
      simp only [List.cons_append, List.cons.injEq] at hss
      obtain ⟨rfl, rfl, rfl⟩ := hss
      obtain ⟨x, hx, hxstart, hxlines⟩ := h.replaced left gone made right rfl
      refine ⟨x, List.mem_cons_of_mem item hx, ?_, hxlines⟩
      simp [sources, Segment.source] at hxstart ⊢
      omega
  · refine List.forall_mem_cons.2 ⟨fun _ => ⟨[.copied copied], old, new, ss, rfl, hnew⟩, ?_⟩
    intro x hx hxadds
    obtain ⟨left, gone, made, right, rfl, hxlines⟩ := h.added x hx hxadds
    exact ⟨.copied copied :: .replaced old new :: left, gone, made, right, rfl, hxlines⟩
  · rcases copies_cons.1 hcopies with ⟨a, b, hseg, rfl, rfl⟩ | ⟨_, _, hbehind, rfl, rfl⟩
    · -- in front of the item nothing is added yet
      obtain rfl := Segment.copied.inj hseg
      rw [byteLength_append] at hcopied
      rw [addedBefore_eq_zero]
      · rfl
      · refine List.forall_mem_cons.2 ⟨by omega, fun x hx => ?_⟩
        have := hlater x hx
        omega
    · rcases copies_cons.1 hbehind with ⟨a, b, hseg, -⟩ | ⟨before, made, hmade, rfl, rfl⟩
      · cases hseg
      · replace hmade := h.copied before made c hmade
        have hoffset : p + byteLength (copied ++ (old ++ before)) = stop + byteLength before := by
          rw [byteLength_append, byteLength_append]
          omega
        simp only [Segment.source, Segment.output]
        rw [hoffset, addedBefore_cons_of_lt (by omega), breaks_append, breaks_append, hnew, hmade,
          breaks_append, breaks_append]
        omega

end Segment.Lines

/-- The segments of a script whose items stand one behind the other have its lines. -/
theorem LaidOut.lines {script : List Char} {n : Nat} {items : List Item}
    (h : LaidOut script n items) (himports : ∀ item ∈ items, item.ImportsIdentifiers script)
    {format : ModuleFormat} {p k : Nat} {rest : List Char} {ss : List Segment} (hp : p ≤ n)
    (hcut : cut p (edits script format k items) rest = some ss) :
    Lines script format p items ss := by
  induction h generalizing p k rest ss with
  | nil n =>
    obtain rfl := Option.some.inj hcut
    exact .nil rest
  | @cons n start stop item items le placed more ih =>
    obtain ⟨hitem, himports⟩ := List.forall_mem_cons.1 himports
    have hstart : item.span.start = start := congrArg Span.start placed.span
    have hopens := placed.start_le
    have hcloses := placed.closes
    rw [edits] at hcut
    generalize (if item.takesModule then k + 1 else k) = next at hcut
    cases hedit : editOf script format k item with
    | none =>
      rw [hedit] at hcut
      exact (ih himports (show p ≤ stop by omega) hcut).cons_kept (added_of_editOf hedit)
    | some e =>
      rw [hedit] at hcut
      obtain ⟨hdeclaration, hrange⟩ := range_of_editOf hedit
      have hlt : item.span.start < item.headStop := hstart ▸ placed.opens hdeclaration
      obtain ⟨copied, old, rest', ss, rfl, hcopied, hold, hmore, rfl⟩ := cut_cons_eq_some_iff.1 hcut
      rw [hrange] at hcopied hold hmore
      refine (ih himports hcloses hmore).cons_replaced hcopied hold hlt
        (fun x hx => hcloses.trans (more.le_start x hx)) ?_
      rw [breaks_append, breaks_filter, Nat.add_comm]
      exact congrArg (_ + ·) (textBreaks_editOf hitem hedit)

/-! ### Compiling -/

/-- Each replacement has as many line breaks as what it replaces, and each copied character stands on
its line of the script, behind the lines of the header. -/
structure Segment.KeepsLines (format : ModuleFormat) (ss : List Segment) : Prop where
  replaced : ∀ left old new right, ss = left ++ .replaced old new :: right → breaks new = breaks old
  copied : ∀ before made c, Copies ss before made c →
    (Position.origin.after (front format ++ made)).line =
      headerLines format + (Position.origin.after before).line

section Compiling

variable {format : ModuleFormat} {source : String} {items : List Item} {ss : List Segment}
  {footer : List String}

theorem Divides.lines (h : Divides format source ss footer) (hparse : parse source = .ok items) :
    Lines source.toList format 0 items ss := by
  obtain ⟨items', hparse', hcut, -⟩ := h
  obtain rfl := Except.ok.inj (hparse.symm.trans hparse')
  exact (laidOut_parse hparse).lines (importsIdentifiers_of_parse hparse) (Nat.le_refl 0) hcut

/-- The line of a copied character. -/
theorem Segment.Lines.line_copied (h : Lines source.toList format 0 items ss) {before made : List Char}
    {c : Char} (hcopies : Copies ss before made c) :
    (Position.origin.after (front format ++ made)).line =
      headerLines format + (Position.origin.after before).line +
        addedBefore source.toList format items (byteLength before) := by
  have hmade := h.copied before made c hcopies
  rw [Nat.zero_add] at hmade
  rw [Position.line_after, Position.line_after, breaks_append, breaks_front, hmade,
    Position.line_origin]
  omega

/-- The lines of a script are kept just when no item adds any. -/
theorem Segment.Lines.keepsLines_iff (h : Lines source.toList format 0 items ss) :
    KeepsLines format ss ↔ ∀ item ∈ items, item.added source.toList format = 0 := by
  constructor
  · intro hkeeps item hitem
    by_contra hadds
    obtain ⟨left, old, new, right, hss, hnew⟩ := h.added item hitem hadds
    have := hkeeps.replaced left old new right hss
    omega
  · intro hnone
    refine ⟨fun left old new right hss => ?_, fun before made c hcopies => ?_⟩
    · obtain ⟨item, hitem, -, hnew⟩ := h.replaced left old new right hss
      rw [hnew, hnone item hitem, Nat.add_zero]
    · rw [h.line_copied hcopies, addedBefore, List.sum_eq_zero_iff_forall_eq_nat.2, Nat.add_zero]
      exact List.forall_mem_map.2 fun item hitem => hnone item (List.mem_of_mem_filter hitem)

end Compiling

/-- **The lines of a script that the parser accepts are kept just when no string that a replacement
repeats has a line break.**  A replacement has the line breaks of what it replaces and those of the
strings, and a copied character stands on its line of the script, behind the header and what the
replacements before it add. -/
theorem exists_compile_lines {source : String} {items : List Item} (h : parse source = .ok items)
    (format : ModuleFormat) (file : String) :
    ∃ made ss footer, compile format file source = .ok made ∧ sources ss = source.toList ∧
      made.code.toList = front format ++ outputs ss ++ footer ∧
      Lines source.toList format 0 items ss ∧
      (∀ before made c, Copies ss before made c →
        (Position.origin.after (front format ++ made)).line =
          headerLines format + (Position.origin.after before).line +
            addedBefore source.toList format items (byteLength before)) ∧
      (KeepsLines format ss ↔ ∀ item ∈ items, item.added source.toList format = 0) := by
  obtain ⟨ss, footer, hdivides, hrewrites⟩ := exists_divides h format
  have hlines := hdivides.lines h
  exact ⟨_, ss, _, compile_eq_ok_iff.2 ⟨ss, footer, hdivides, rfl⟩, hrewrites.source,
    code_assemble format file source ss footer, hlines, fun _ _ _ => hlines.line_copied,
    hlines.keepsLines_iff⟩

/-- A script that imports from a module whose name goes on in a second line. -/
def foldedSource : String := "import a from 'x\\\ny'\nlet b = a\n"

def foldedItems : List Item :=
  [.importing ⟨0, 20⟩ [.default ⟨"a", ⟨7, 8⟩⟩] ⟨14, 20⟩, .statement ⟨21, 30⟩ [⟨"b", ⟨25, 26⟩⟩]]

theorem parse_foldedSource : parse foldedSource = .ok foldedItems := by
  decide +kernel

theorem exists_compile_lines_foldedSource : parse foldedSource = .ok foldedItems ∧
    ∃ made ss footer, compile .commonJS "/app/A.vue" foldedSource = .ok made ∧
      sources ss = foldedSource.toList ∧
      made.code.toList = front .commonJS ++ outputs ss ++ footer ∧
      Lines foldedSource.toList .commonJS 0 foldedItems ss ∧
      (∀ before made c, Copies ss before made c →
        (Position.origin.after (front .commonJS ++ made)).line =
          headerLines .commonJS + (Position.origin.after before).line +
            addedBefore foldedSource.toList .commonJS foldedItems (byteLength before)) ∧
      (KeepsLines .commonJS ss ↔
        ∀ item ∈ foldedItems, item.added foldedSource.toList .commonJS = 0) :=
  ⟨parse_foldedSource, exists_compile_lines parse_foldedSource .commonJS "/app/A.vue"⟩

/-- The line break in the name is repeated, and that of the import declaration is kept too. -/
theorem not_keepsLines_foldedSource :
    ∃ ss footer, Divides .commonJS foldedSource ss footer ∧ ¬ KeepsLines .commonJS ss := by
  obtain ⟨ss, footer, hdivides, -⟩ := exists_divides parse_foldedSource .commonJS
  refine ⟨ss, footer, hdivides, fun hkeeps => ?_⟩
  have hnone := (hdivides.lines parse_foldedSource).keepsLines_iff.1 hkeeps _ List.mem_cons_self
  revert hnone
  decide +kernel

end SingleFile.Script
