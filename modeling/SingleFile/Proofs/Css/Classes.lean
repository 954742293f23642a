import SingleFile.Css.Compile
import SingleFile.Proofs.Order.Stable

/-!
# The classes of a style sheet

A class may occur in a selector of a rule, in a selector that is given to a part of another one, and in
the rules in a rule, at any depth.  `Selector.Holds`, `Rule.Holds` and `StyleSheet.Holds` say so for any
choice of the parts and rules that are entered.  The class map enters the pseudo-classes that match
against selectors and four of the rules that hold rules, and of these places it has all classes
(`mem_classNames`).
-/

namespace SingleFile.Css

/-! ### Where classes occur -/

def Part.selectors : Part → List Selector
  | .matching _ selectors | .classFunction _ _ selectors | .elementFunction _ _ selectors => selectors
  | _ => []

/-- The rules in a rule. -/
def Rule.rules : Rule → List Rule
  | .style _ _ rules | .group _ _ _ rules => rules
  | .other _ _ _ => []

/-- The selectors of a rule.  Of the groups only the one for nesting has some. -/
def Rule.selectors : Rule → List Selector
  | .style selectors _ _ => selectors
  | .group name words _ _ =>
    if Selector.isOneOf ["nest"] name then (Selector.readList false words).getD [] else []
  | .other _ _ _ => []

/-- Whether a class occurs in a selector, or in one that is given to a part of it that is entered. -/
inductive Selector.Holds (enters : Part → Prop) (name : String) : Selector → Prop
  | here {s : Selector} : Part.className name ∈ s → Selector.Holds enters name s
  | inside {s t : Selector} {p : Part} : p ∈ s → enters p → t ∈ p.selectors →
      Selector.Holds enters name t → Selector.Holds enters name s

/-- Whether a class occurs in a selector of a rule, or of a rule in it, where the rules are entered. -/
inductive Rule.Holds (entersPart : Part → Prop) (enters : Rule → Prop) (name : String) : Rule → Prop
  | here {r : Rule} {s : Selector} : enters r → s ∈ r.selectors →
      Selector.Holds entersPart name s → Rule.Holds entersPart enters name r
  | inside {r q : Rule} : enters r → q ∈ r.rules → Rule.Holds entersPart enters name q →
      Rule.Holds entersPart enters name r

/-- Whether a class occurs in a style sheet. -/
def StyleSheet.Holds (entersPart : Part → Prop) (enters : Rule → Prop) (name : String)
    (sheet : StyleSheet) : Prop :=
  ∃ r ∈ sheet.rules, r.Holds entersPart enters name

/-- The parts whose selectors the class map has: those that match against them. -/
def Part.Entered : Part → Prop
  | .matching _ _ => True
  | _ => False

/-- The rules whose rules the class map has. -/
def Rule.Entered : Rule → Prop
  | .style _ _ _ => True
  | .group name _ _ _ => Selector.isOneOf ["media", "supports", "layer", "container"] name = true
  | .other _ _ _ => False

/-- Nothing is left out. -/
def Anywhere {α : Type} (_ : α) : Prop := True

theorem Selector.Holds.anywhere {enters : Part → Prop} {name : String} {s : Selector}
    (h : s.Holds enters name) : s.Holds Anywhere name := by
  induction h with
  | here hp => exact .here hp
  | inside hp _ ht _ ih => exact .inside hp trivial ht ih

theorem Rule.Holds.anywhere {entersPart : Part → Prop} {enters : Rule → Prop} {name : String}
    {r : Rule} (h : r.Holds entersPart enters name) : r.Holds Anywhere Anywhere name := by
  induction h with
  | here _ hs hname => exact .here trivial hs hname.anywhere
  | inside _ hq _ ih => exact .inside trivial hq ih

theorem StyleSheet.Holds.anywhere {entersPart : Part → Prop} {enters : Rule → Prop} {name : String}
    {sheet : StyleSheet} (h : sheet.Holds entersPart enters name) :
    sheet.Holds Anywhere Anywhere name := by
  obtain ⟨r, hr, hname⟩ := h
  exact ⟨r, hr, hname.anywhere⟩

/-! ### Selectors -/

namespace Selector

variable {name : String} {s : Selector}

/-- Whichever compound a part goes to, its classes are among those of the compounds. -/
theorem flatten_groups_cons (p : Part) (ps : List Part) :
    (groups (p :: ps)).flatten = partClasses p ++ (groups ps).flatten := by
  cases p with
  | combinator c => simp [groups, partClasses]
  | _ =>
    rw [groups]
    · cases groups ps with
      | nil => simp
      | cons g gs => simp
    · exact fun _ h => Part.noConfusion h

theorem mem_classes : name ∈ classes s ↔ ∃ p ∈ s, name ∈ partClasses p := by
  have hflatten (ps : List Part) : name ∈ (groups ps).flatten ↔ ∃ p ∈ ps, name ∈ partClasses p := by
    induction ps with
    | nil => simp [groups]
    | cons p ps ih => rw [flatten_groups_cons, List.mem_append, ih, List.exists_mem_cons_iff]
  rw [← hflatten, classes, List.mem_flatten, List.mem_flatten]
  simp only [List.mem_reverse]

theorem mem_listClasses {selectors : List Selector} :
    name ∈ listClasses selectors ↔ ∃ s ∈ selectors, name ∈ classes s := by
  induction selectors with
  | nil => simp [listClasses]
  | cons s selectors ih =>
    rw [listClasses, List.mem_append, ih, List.exists_mem_cons_iff, classes]

theorem mem_classes_of_holds (h : Holds Part.Entered name s) : name ∈ classes s := by
  induction h with
  | here hp => exact mem_classes.2 ⟨_, hp, by simp [partClasses]⟩
  | @inside s t p hp henters ht _ ih =>
    refine mem_classes.2 ⟨p, hp, ?_⟩
    cases p with
    | matching kind selectors =>
      rw [partClasses]
      exact mem_listClasses.2 ⟨t, ht, ih⟩
    | _ => exact henters.elim

theorem sizeOf_lt_of_mem_selectors {t : Selector} {p : Part} (hp : p ∈ s) (ht : t ∈ p.selectors) :
    sizeOf t < sizeOf s := by
  have hpart := List.sizeOf_lt_of_mem hp
  cases p with
  | matching kind selectors =>
    have := List.sizeOf_lt_of_mem (show t ∈ selectors from ht)
    simp only [Part.matching.sizeOf_spec] at hpart
    omega
  | classFunction n args selectors =>
    have := List.sizeOf_lt_of_mem (show t ∈ selectors from ht)
    simp only [Part.classFunction.sizeOf_spec] at hpart
    omega
  | elementFunction n args selectors =>
    have := List.sizeOf_lt_of_mem (show t ∈ selectors from ht)
    simp only [Part.elementFunction.sizeOf_spec] at hpart
    omega
  | _ => exact absurd ht List.not_mem_nil

theorem holds_of_mem_classes (h : name ∈ classes s) : Holds Part.Entered name s := by
  induction hn : sizeOf s using Nat.strongRecOn generalizing s with
  | ind n ih =>
    subst hn
    obtain ⟨p, hp, hname⟩ := mem_classes.1 h
    cases p with
    | className c =>
      rw [partClasses, List.mem_singleton] at hname
      subst hname
      exact .here hp
    | matching kind selectors =>
      rw [partClasses] at hname
      obtain ⟨t, ht, hname⟩ := mem_listClasses.1 hname
      exact .inside hp trivial ht (ih _ (sizeOf_lt_of_mem_selectors hp ht) hname rfl)
    | _ => simp [partClasses] at hname

/-- The classes of a selector are those that occur in it where it is entered. -/
theorem mem_classes_iff : name ∈ classes s ↔ Holds Part.Entered name s :=
  ⟨holds_of_mem_classes, mem_classes_of_holds⟩

end Selector

/-! ### Rules -/

namespace StyleSheet

variable {name : String} {r : Rule} {sheet : StyleSheet}

theorem mem_rulesClasses {rs : List Rule} :
    name ∈ rulesClasses rs ↔ ∃ r ∈ rs, name ∈ ruleClasses r := by
  induction rs with
  | nil => simp [rulesClasses]
  | cons r rs ih => rw [rulesClasses, List.mem_append, ih, List.exists_mem_cons_iff]

theorem mem_ruleClasses_style {selectors : List Selector} {declarations : List Declaration}
    {rules : List Rule} : name ∈ ruleClasses (.style selectors declarations rules) ↔
      (∃ s ∈ selectors, name ∈ s.classes) ∨ ∃ q ∈ rules, name ∈ ruleClasses q := by
  rw [ruleClasses, List.mem_append, mem_rulesClasses, List.mem_flatten]
  simp

/-- A group that is entered is none for nesting. -/
theorem selectors_group {n : String} {words : List Node} {declarations : List Declaration}
    {rules : List Rule} (h : Rule.Entered (.group n words declarations rules)) :
    (Rule.group n words declarations rules).selectors = [] := by
  have hnest : Selector.isOneOf ["nest"] n = false := by
    rw [Bool.eq_false_iff]
    intro hn
    have hlower : "nest".toList.map lowerAscii = n.toList.map lowerAscii := by
      simpa [Selector.isOneOf, equalFold] using hn
    have hgroup : Selector.isOneOf ["media", "supports", "layer", "container"] n = true := h
    unfold Selector.isOneOf equalFold at hgroup
    rw [← hlower] at hgroup
    exact absurd hgroup (by decide)
  rw [Rule.selectors, hnest]
  rfl

theorem mem_ruleClasses_of_holds (h : r.Holds Part.Entered Rule.Entered name) :
    name ∈ ruleClasses r := by
  induction h with
  | @here r s henters hs hname =>
    cases r with
    | style selectors declarations rules =>
      exact mem_ruleClasses_style.2 (.inl ⟨s, hs, Selector.mem_classes_iff.2 hname⟩)
    | group n words declarations rules =>
      rw [selectors_group henters] at hs
      exact absurd hs List.not_mem_nil
    | other n words body => exact henters.elim
  | @inside r q henters hq _ ih =>
    cases r with
    | style selectors declarations rules => exact mem_ruleClasses_style.2 (.inr ⟨q, hq, ih⟩)
    | group n words declarations rules =>
      have hgroup : Selector.isOneOf ["media", "supports", "layer", "container"] n = true := henters
      rw [ruleClasses, if_pos hgroup]
      exact mem_rulesClasses.2 ⟨q, hq, ih⟩
    | other n words body => exact henters.elim

theorem sizeOf_lt_of_mem_rules {q : Rule} (hq : q ∈ r.rules) : sizeOf q < sizeOf r := by
  cases r with
  | style selectors declarations rules =>
    have := List.sizeOf_lt_of_mem (show q ∈ rules from hq)
    simp only [Rule.style.sizeOf_spec]
    omega
  | group n words declarations rules =>
    have := List.sizeOf_lt_of_mem (show q ∈ rules from hq)
    simp only [Rule.group.sizeOf_spec]
    omega
  | other n words body => exact absurd hq List.not_mem_nil

theorem holds_of_mem_ruleClasses (h : name ∈ ruleClasses r) :
    r.Holds Part.Entered Rule.Entered name := by
  induction hn : sizeOf r using Nat.strongRecOn generalizing r with
  | ind n ih =>
    subst hn
    cases r with
    | style selectors declarations rules =>
      rcases mem_ruleClasses_style.1 h with ⟨s, hs, hname⟩ | ⟨q, hq, hname⟩
      · exact .here trivial hs (Selector.mem_classes_iff.1 hname)
      · exact .inside trivial hq (ih _ (sizeOf_lt_of_mem_rules hq) hname rfl)
    | group n words declarations rules =>
      rw [ruleClasses] at h
      split at h
      · next henters =>
        obtain ⟨q, hq, hname⟩ := mem_rulesClasses.1 h
        exact .inside henters hq (ih _ (sizeOf_lt_of_mem_rules hq) hname rfl)
      · exact absurd h List.not_mem_nil
    | other n words body =>
      rw [ruleClasses] at h
      exact absurd h List.not_mem_nil

/-- The classes of a style sheet are those that occur in it where it is entered. -/
theorem mem_classNames : name ∈ sheet.classNames ↔ sheet.Holds Part.Entered Rule.Entered name := by
  rw [classNames, mem_firstUses, mem_rulesClasses]
  constructor
  · rintro ⟨r, hr, hname⟩
    exact ⟨r, hr, holds_of_mem_ruleClasses hname⟩
  · rintro ⟨r, hr, hname⟩
    exact ⟨r, hr, mem_ruleClasses_of_holds hname⟩

end StyleSheet

/-! ### The class map -/

/-- The class map of a style sheet maps each of its classes to itself.  The classes are listed once, in
the order in which they are first met, and they are all that occur where the style sheet is entered: so
no class is missing just when all that occur anywhere in it occur there. -/
theorem classMap?_exact {css : String} {sheet : StyleSheet} (h : StyleSheet.parse css = some sheet) :
    classMap? css = some (.object (sheet.classNames.map fun n => (n, .string n))) ∧
    sheet.classNames.Nodup ∧
    (sheet.classNames.Pairwise fun a b =>
      (StyleSheet.rulesClasses sheet.rules).idxOf a < (StyleSheet.rulesClasses sheet.rules).idxOf b) ∧
    (∀ n, n ∈ sheet.classNames ↔ sheet.Holds Part.Entered Rule.Entered n) ∧
    ((∀ n, n ∈ sheet.classNames ↔ sheet.Holds Anywhere Anywhere n) ↔
      ∀ n, sheet.Holds Anywhere Anywhere n → sheet.Holds Part.Entered Rule.Entered n) := by
  have hmem (n : String) : n ∈ sheet.classNames ↔ sheet.Holds Part.Entered Rule.Entered n :=
    StyleSheet.mem_classNames
  refine ⟨by rw [classMap?, h, Option.map_some], nodup_firstUsesAfter [] _, pairwise_firstUses _, hmem,
    ?_⟩
  constructor
  · intro hall n hn
    exact (hmem n).1 ((hall n).2 hn)
  · intro hall n
    rw [hmem n]
    exact ⟨StyleSheet.Holds.anywhere, hall n⟩

/-- A style sheet with nested rules, of which one has a class that another one has as well. -/
def nestedSheet : String := "@media print\x7b.a:not(.b)\x7bcolor:red;.c &\x7b\x7d\x7d\x7d.d .a\x7b\x7d"

theorem classMap?_exact_nestedSheet :
    ∃ sheet, StyleSheet.parse nestedSheet = some sheet ∧
      sheet.classNames = ["a", "b", "c", "d"] ∧
      classMap? nestedSheet = some (.object
        [("a", .string "a"), ("b", .string "b"), ("c", .string "c"), ("d", .string "d")]) ∧
      ∀ n, n ∈ ["a", "b", "c", "d"] ↔ sheet.Holds Part.Entered Rule.Entered n := by
  have hnames : (StyleSheet.parse nestedSheet).map StyleSheet.classNames =
      some ["a", "b", "c", "d"] := by decide +kernel
  obtain ⟨sheet, hsheet, hnames⟩ := Option.map_eq_some_iff.1 hnames
  obtain ⟨hmap, -, -, hmem, -⟩ := classMap?_exact hsheet
  rw [hnames] at hmap hmem
  exact ⟨sheet, hsheet, hnames, hmap, hmem⟩

/-- A style sheet with a class in a rule that says how elements start. -/
def startingSheet : String := "@starting-style\x7b.st\x7b\x7d\x7d"

/-- The class is missing. -/
theorem not_holds_startingSheet :
    ∃ sheet, StyleSheet.parse startingSheet = some sheet ∧ sheet.Holds Anywhere Anywhere "st" ∧
      "st" ∉ sheet.classNames ∧ classMap? startingSheet = some (.object []) := by
  have hread : (StyleSheet.parse startingSheet).any (fun sheet => sheet.classNames.isEmpty &&
      sheet.rules.any fun r => r.rules.any fun q =>
        (StyleSheet.ruleClasses q).contains "st") = true := by decide +kernel
  cases hsheet : StyleSheet.parse startingSheet with
  | none =>
    rw [hsheet] at hread
    cases hread
  | some sheet =>
    rw [hsheet, Option.any_some, Bool.and_eq_true, List.isEmpty_iff] at hread
    obtain ⟨hnames, hread⟩ := hread
    obtain ⟨r, hr, hread⟩ := List.any_eq_true.1 hread
    obtain ⟨q, hq, hclass⟩ := List.any_eq_true.1 hread
    have hholds := StyleSheet.holds_of_mem_ruleClasses (List.contains_iff_mem.1 hclass)
    refine ⟨sheet, rfl, ⟨r, hr, .inside trivial hq hholds.anywhere⟩, ?_, ?_⟩
    · rw [hnames]
      exact List.not_mem_nil
    · rw [classMap?, hsheet, Option.map_some, hnames]
      rfl

end SingleFile.Css
