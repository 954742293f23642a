import Mathlib.Data.List.Nodup
import SingleFile.Proofs.Script.DefaultExport
import SingleFile.Proofs.Script.LineBreaks

/-!
# The names that compiled code adds

Some replacements start by declaring a name that the script does not have: the module object of what is
imported or exported from elsewhere, or the constant of a default export without a name.  Module objects
are numbered and so told apart (`importName_injective`), while all constants have one name.

No name depends on what the script binds.  So the names are new just when the script binds none of them
(`exists_compile_locals`), and a script that does is compiled all the same
(`not_fresh_numberedSource`).
-/

namespace SingleFile.Script

open Cursor Segment

/-! ### Names that are declared -/

/-- The name that a text declares at its start. -/
def declared? (text : List Char) : Option String :=
  (stripPrefix? "var ".toList text <|> stripPrefix? "const ".toList text).map fun rest =>
    String.ofList (rest.takeWhile (· ≠ ' '))

/-- The name that a segment declares at its start in place of what it replaces. -/
def Segment.local? : Segment → Option String
  | .copied _ => none
  | .replaced _ new => declared? new

/-- Names are new to a module: they differ from each other and from all that it binds at its top. -/
structure Fresh (names : List String) (items : List Item) : Prop where
  distinct : names.Nodup
  apart : ∀ item ∈ items, ∀ n ∈ item.bound, n.text ∉ names

theorem declared?_of_ne {c : Char} {text : List Char} (hv : 'v' ≠ c) (hc : 'c' ≠ c) :
    declared? (c :: text) = none := by
  have hvar : stripPrefix? "var ".toList (c :: text) = none := by
    show (if ('v' == c) = true then _ else none) = none
    rw [if_neg (by simpa using hv)]
  have hconst : stripPrefix? "const ".toList (c :: text) = none := by
    show (if ('c' == c) = true then _ else none) = none
    rw [if_neg (by simpa using hc)]
  unfold declared?
  rw [hvar, hconst]
  rfl

theorem declared?_breaks (old : List Char) : declared? (old.filter (· = '\n')) = none := by
  cases hbreaks : old.filter (· = '\n') with
  | nil => rfl
  | cons c cs =>
    have hmem : c ∈ old.filter (· = '\n') := hbreaks ▸ List.mem_cons_self
    obtain rfl : c = '\n' := by simpa using (List.mem_filter.1 hmem).2
    exact declared?_of_ne (by decide) (by decide)

/-- A keyword declares the name behind it. -/
theorem declared?_keyword {keyword name : String} (hkeyword : keyword = "var " ∨ keyword = "const ")
    (hname : ' ' ∉ name.toList) (rest : List Char) :
    declared? (keyword.toList ++ (name.toList ++ ' ' :: rest)) = some name := by
  have hstrip : (stripPrefix? "var ".toList (keyword.toList ++ (name.toList ++ ' ' :: rest)) <|>
      stripPrefix? "const ".toList (keyword.toList ++ (name.toList ++ ' ' :: rest))) =
        some (name.toList ++ ' ' :: rest) := by
    rcases hkeyword with rfl | rfl <;> rfl
  have htaken : (name.toList ++ ' ' :: rest).takeWhile (· ≠ ' ') = name.toList := by
    rw [List.takeWhile_append_of_pos]
    · simp
    · intro c hc
      have hne : c ≠ ' ' := by
        rintro rfl
        exact hname hc
      simpa using hne
  unfold declared?
  rw [hstrip, Option.map_some, htaken, String.ofList_toList]

/-- A text that requires a module for a module object declares the object. -/
theorem declared?_required {module : String} (hmodule : ' ' ∉ module.toList) (text : String)
    (more : List Char) :
    declared? (("var " ++ (module ++ (" = require(" ++ text))).toList ++ more) = some module := by
  have htext : ("var " ++ (module ++ (" = require(" ++ text))).toList ++ more =
      "var ".toList ++ (module.toList ++ ' ' :: ("= require(".toList ++ text.toList ++ more)) := by
    simp [String.toList_append]
  rw [htext]
  exact declared?_keyword (.inl rfl) hmodule _

/-! ### Names of module objects -/

theorem importName_injective : Function.Injective importName := by
  have hread (n : Nat) : Nat.ofDigitChars 10 (Nat.toDigits 10 n) 0 = n :=
    Nat.ofDigitChars_toDigits (by omega) (by omega)
  intro m n h
  have hlist := congrArg String.toList h
  rw [toList_importName, toList_importName, List.append_cancel_left_eq] at hlist
  rw [← hread m, ← hread n, hlist]

/-! ### Edits -/

/-- Whether an item exports a value as the default that has no name. -/
def Item.isNameless : Item → Bool
  | .exportValue _ _ | .exportDefault _ _ none => true
  | _ => false

/-- The name that is added for an item; `n` is the number of the next module object. -/
def Item.local? (format : ModuleFormat) (n : Nat) (item : Item) : Option String :=
  match format with
  | .commonJS => if item.takesModule then some (importName n) else none
  | .ecmaScript => if item.isNameless then some componentName else none

theorem declared?_defaultValueEdit (format : ModuleFormat) (range : Span) (more : List Char) :
    declared? ((defaultValueEdit format range).text.toList ++ more) =
      match format with
      | .commonJS => none
      | .ecmaScript => some componentName := by
  cases format with
  | commonJS =>
    have htext : "exports.default = ".toList = 'e' :: "xports.default = ".toList := by decide
    show declared? ("exports.default = ".toList ++ more) = none
    rw [htext]
    exact declared?_of_ne (by decide) (by decide)
  | ecmaScript =>
    have htext : ("const " ++ componentName ++ " = ").toList ++ more =
        "const ".toList ++ (componentName.toList ++ ' ' :: ("= ".toList ++ more)) := by
      simp [String.toList_append]
    show declared? (("const " ++ componentName ++ " = ").toList ++ more) = some componentName
    rw [htext]
    exact declared?_keyword (.inr rfl) (by decide) _

theorem declared?_importText (script : List Char) {module : String} (hmodule : ' ' ∉ module.toList)
    (source : String) (bindings : List ImportBinding) (more : List Char) :
    declared? ((importText script module source bindings).toList ++ more) =
      if bindings.isEmpty then none else some module := by
  unfold importText
  split
  · have htext : ("require(" ++ source ++ ");").toList =
        'r' :: ("equire(".toList ++ source.toList ++ ");".toList) := by
      simp [String.toList_append]
    rw [htext]
    exact declared?_of_ne (by decide) (by decide)
  · simp only [String.append_assoc]
    exact declared?_required hmodule _ _

/-- What stands for an item declares the name that is added for it, if there is one. -/
theorem local?_eq_bind (script : List Char) (format : ModuleFormat) (n : Nat) (item : Item)
    (old : List Char) : item.local? format n = (editOf script format n item).bind fun e =>
      declared? (e.text.toList ++ old.filter (· = '\n')) := by
  have hvalue (range : Span) : (if format = .ecmaScript then some componentName else none) =
      declared? ((defaultValueEdit format range).text.toList ++ old.filter (· = '\n')) := by
    rw [declared?_defaultValueEdit]
    cases format <;> rfl
  have hname : ' ' ∉ (importName n).toList := notMem_importName (by decide) (by decide) n
  cases item with
  | statement span names => cases format <;> rfl
  | exportValue span start =>
    refine Eq.trans ?_ (hvalue ⟨span.start, start⟩)
    cases format <;> rfl
  | exportDefault span start name =>
    cases name with
    | none =>
      refine Eq.trans ?_ (hvalue ⟨span.start, start⟩)
      cases format <;> rfl
    | some name =>
      refine Eq.trans ?_ (declared?_breaks old).symm
      cases format <;> rfl
  | importing span bindings source =>
    cases format with
    | ecmaScript => rfl
    | commonJS =>
      refine Eq.trans ?_ (declared?_importText script hname (textAt script source) bindings _).symm
      cases bindings <;> rfl
  | exportDeclaration span start names =>
    cases format with
    | ecmaScript => rfl
    | commonJS => exact (declared?_breaks old).symm
  | exportNamed span bindings source =>
    cases format with
    | ecmaScript => cases source <;> rfl
    | commonJS =>
      cases source with
      | none => exact (declared?_breaks old).symm
      | some source =>
        simp only [editOf, Option.bind_some, String.append_assoc]
        exact (declared?_required hname _ _).symm
  | exportAll span source =>
    cases format with
    | ecmaScript => rfl
    | commonJS =>
      simp only [editOf, Option.bind_some, exportAllText, String.append_assoc]
      exact (declared?_required hname _ _).symm

/-- The lines at the end of the code declare nothing. -/
theorem declared?_footer {script : List Char} {items : List Item}
    (hwritten : ∀ item ∈ items, item.Written script) (format : ModuleFormat) (n : Nat) {line : String}
    (hline : line ∈ ((edits script format n items).map (·.footer)).flatten) :
    declared? line.toList = none := by
  have happend {s : String} (hs : s.toList.head? = some 'e') (t : String) :
      (s ++ t).toList.head? = some 'e' := by
    rw [String.toList_append, List.head?_append, hs]
    rfl
  have hassigned (name : String) (value : Operand) :
      ((Emitted.assigned name value).text script).toList.head? = some 'e' := by
    have hmember : (memberOf "exports" name).toList.head? = some 'e' := by
      unfold memberOf
      split
      · exact happend (happend (happend (by decide) "[") name) "]"
      · exact happend (happend (happend (by decide) "[") name) "]"
      · exact happend (happend (by decide) ".") name
    exact happend (happend (happend hmember " = ") _) ";"
  have hhead : line.toList.head? = some 'e' := by
    cases format with
    | ecmaScript =>
      rw [footer_edits_ecmaScript] at hline
      obtain ⟨name, -, rfl⟩ := List.mem_map.1 hline
      exact happend (happend (by decide) name) " as default \x7d"
    | commonJS =>
      rw [footer_edits hwritten] at hline
      obtain ⟨e, he, rfl⟩ := List.mem_map.1 hline
      obtain ⟨item, -, hmem⟩ := List.mem_flatMap.1 he
      cases item with
      | exportDefault span start name =>
        cases name with
        | none => cases hmem
        | some name =>
          obtain rfl := List.mem_singleton.1 hmem
          exact hassigned _ _
      | exportDeclaration span start names =>
        obtain ⟨name, -, rfl⟩ := List.mem_map.1 hmem
        exact happend (happend (happend (happend (by decide) _) " = ") _) ";"
      | exportNamed span bindings source =>
        cases source with
        | none =>
          obtain ⟨b, -, hb⟩ := List.mem_filterMap.1 hmem
          cases b with
          | named inner outer =>
            obtain rfl := Option.some.inj hb
            exact hassigned _ _
          | whole outer => cases hb
        | some source => cases hmem
      | _ => cases hmem
  obtain ⟨rest, hrest⟩ : ∃ rest, line.toList = 'e' :: rest := List.head?_eq_some_iff.1 hhead
  rw [hrest]
  exact declared?_of_ne (by decide) (by decide)

/-! ### Modules -/

/-- The names that are added for the items of a module, with module objects numbered from `n`. -/
def addedNames (format : ModuleFormat) (n : Nat) (items : List Item) : List String :=
  match format with
  | .commonJS => (List.range' n (items.countP (·.takesModule))).map importName
  | .ecmaScript => List.replicate (items.countP (·.isNameless)) componentName

theorem addedNames_cons (format : ModuleFormat) (n : Nat) (item : Item) (items : List Item) :
    addedNames format n (item :: items) = (item.local? format n).toList ++
      addedNames format (if item.takesModule then n + 1 else n) items := by
  cases format with
  | commonJS =>
    unfold addedNames Item.local?
    dsimp only
    rw [List.countP_cons]
    by_cases htakes : item.takesModule = true
    · rw [if_pos htakes, if_pos htakes, if_pos htakes, List.range'_succ]
      rfl
    · rw [if_neg htakes, if_neg htakes, if_neg htakes]
      rfl
  | ecmaScript =>
    unfold addedNames Item.local?
    dsimp only
    rw [List.countP_cons]
    by_cases hnameless : item.isNameless = true
    · rw [if_pos hnameless, if_pos hnameless, List.replicate_succ]
      rfl
    · rw [if_neg hnameless, if_neg hnameless]
      rfl

/-- The segments of a script declare the names that are added for its items. -/
theorem locals_of_cut {script : List Char} {format : ModuleFormat} {p n : Nat} {items : List Item}
    {rest : List Char} {ss : List Segment}
    (h : cut p (edits script format n items) rest = some ss) :
    ss.filterMap Segment.local? = addedNames format n items := by
  induction items generalizing p n rest ss with
  | nil =>
    obtain rfl := Option.some.inj h
    cases format <;> rfl
  | cons item items ih =>
    have hlocal := local?_eq_bind script format n item
    rw [edits] at h
    rw [addedNames_cons]
    cases hedit : editOf script format n item with
    | none =>
      rw [hedit] at h hlocal
      rw [hlocal []]
      exact ih h
    | some e =>
      rw [hedit] at h hlocal
      obtain ⟨before, old, rest', more, -, -, -, hmore, rfl⟩ := cut_cons_eq_some_iff.1 h
      have hadded : Segment.local? (.replaced old (e.text.toList ++ old.filter (· = '\n'))) =
          item.local? format n := (hlocal old).symm
      rw [List.filterMap_cons_none rfl, List.filterMap_cons, hadded, ih hmore]
      cases item.local? format n <;> rfl

/-- The names are new just when the script binds none of them, and there is but one constant. -/
theorem fresh_addedNames_iff (format : ModuleFormat) (n : Nat) (items : List Item) :
    Fresh (addedNames format n items) items ↔
      (format = .commonJS ∨ items.countP (·.isNameless) ≤ 1) ∧
        ∀ item ∈ items, ∀ name ∈ item.bound, name.text ∉ addedNames format n items := by
  have hdistinct : (addedNames format n items).Nodup ↔
      format = .commonJS ∨ items.countP (·.isNameless) ≤ 1 := by
    cases format with
    | commonJS =>
      have hnodup : (addedNames .commonJS n items).Nodup :=
        List.Nodup.map importName_injective List.nodup_range'
      simp [hnodup]
    | ecmaScript =>
      have hnodup : (addedNames .ecmaScript n items).Nodup ↔ items.countP (·.isNameless) ≤ 1 :=
        List.nodup_replicate
      simp [hnodup]
  rw [← hdistinct]
  exact ⟨fun h => ⟨h.distinct, h.apart⟩, fun h => ⟨h.1, h.2⟩⟩

/-! ### Compiling -/

/-- **What compiled code declares besides the names of its script.**  In the older format these are the
module objects `_import1`, `_import2` and so on, one for each declaration that needs one, and in the
newer one the constant `_sfc_main`, for each default export without a name.  The first are told apart,
and the second where there is but one.  They are new just when the script binds none of them too. -/
theorem exists_compile_locals {source : String} {items : List Item} (h : parse source = .ok items)
    (format : ModuleFormat) (file : String) :
    ∃ made ss footer, compile format file source = .ok made ∧ sources ss = source.toList ∧
      made.code.toList =
        front format ++ outputs ss ++ footerText (front format ++ outputs ss) footer ∧
      (∀ line ∈ footer, declared? line.toList = none) ∧
      ss.filterMap Segment.local? = addedNames format 1 items ∧
      (Fresh (ss.filterMap Segment.local?) items ↔
        (format = .commonJS ∨ items.countP (·.isNameless) ≤ 1) ∧
          ∀ item ∈ items, ∀ name ∈ item.bound, name.text ∉ addedNames format 1 items) := by
  obtain ⟨ss, footer, hdivides, hrewrites⟩ := exists_divides h format
  refine ⟨_, ss, footer, compile_eq_ok_iff.2 ⟨ss, footer, hdivides, rfl⟩, hrewrites.source,
    code_assemble format file source ss footer, ?_⟩
  obtain ⟨items', hparse, hcut, rfl⟩ := hdivides
  obtain rfl := Except.ok.inj (h.symm.trans hparse)
  refine ⟨fun line hline => declared?_footer (written_of_parse h) format 1 hline, locals_of_cut hcut, ?_⟩
  rw [locals_of_cut hcut]
  exact fresh_addedNames_iff format 1 items

/-- A script that imports a module and has a name of its own like that of a module object. -/
def numberedSource : String := "import a from 'a'\nconst _import1 = a\n"

/-- The items of the script. -/
def numberedItems : List Item :=
  [.importing ⟨0, 17⟩ [.default ⟨"a", ⟨7, 8⟩⟩] ⟨14, 17⟩,
    .statement ⟨18, 36⟩ [⟨"_import1", ⟨24, 32⟩⟩]]

theorem parse_numberedSource : parse numberedSource = .ok numberedItems := by
  decide +kernel

theorem exists_compile_locals_numberedSource : parse numberedSource = .ok numberedItems ∧
    ∃ made ss footer, compile .commonJS "/app/A.vue" numberedSource = .ok made ∧
      sources ss = numberedSource.toList ∧
      made.code.toList =
        front .commonJS ++ outputs ss ++ footerText (front .commonJS ++ outputs ss) footer ∧
      (∀ line ∈ footer, declared? line.toList = none) ∧
      ss.filterMap Segment.local? = addedNames .commonJS 1 numberedItems ∧
      (Fresh (ss.filterMap Segment.local?) numberedItems ↔
        (ModuleFormat.commonJS = .commonJS ∨ numberedItems.countP (·.isNameless) ≤ 1) ∧
          ∀ item ∈ numberedItems, ∀ name ∈ item.bound,
            name.text ∉ addedNames .commonJS 1 numberedItems) :=
  ⟨parse_numberedSource, exists_compile_locals parse_numberedSource .commonJS "/app/A.vue"⟩

/-- The module object is declared under the name that the script declares. -/
theorem not_fresh_numberedSource :
    ∃ made ss footer, compile .commonJS "/app/A.vue" numberedSource = .ok made ∧
      Divides .commonJS numberedSource ss footer ∧
      assemble .commonJS "/app/A.vue" numberedSource ss footer = made ∧
      ss.filterMap Segment.local? = ["_import1"] ∧
      ¬ Fresh (ss.filterMap Segment.local?) numberedItems := by
  obtain ⟨ss, footer, hdivides, -⟩ := exists_divides parse_numberedSource .commonJS
  refine ⟨_, ss, footer, compile_eq_ok_iff.2 ⟨ss, footer, hdivides, rfl⟩, hdivides, rfl, ?_⟩
  obtain ⟨items, hparse, hcut, -⟩ := hdivides
  obtain rfl := Except.ok.inj (parse_numberedSource.symm.trans hparse)
  have hadded : addedNames .commonJS 1 numberedItems = ["_import1"] := by decide +kernel
  rw [locals_of_cut hcut, hadded]
  refine ⟨rfl, ?_⟩
  intro hfresh
  have hitem : .statement ⟨18, 36⟩ [⟨"_import1", ⟨24, 32⟩⟩] ∈ numberedItems := by decide
  exact hfresh.apart _ hitem ⟨"_import1", ⟨24, 32⟩⟩ List.mem_cons_self List.mem_cons_self

end SingleFile.Script
