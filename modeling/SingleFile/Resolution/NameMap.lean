import SingleFile.Pattern.Reader
import SingleFile.Pattern.Replacement
import SingleFile.Text.Search

/-!
# Rewriting module names

A project can say how names of modules are to be read: ordered rules, each a pattern and a
replacement.  The first rule whose pattern occurs in a name replaces the whole name; a name that no
rule knows stays.  `<rootDir>` in a replacement is the directory of the project.
-/

namespace SingleFile

/-- A rule: what it looks for, and the template of what it puts in place. -/
structure NameRule where
  pattern : Pattern
  template : List Char

/-- The rules in the order in which they are tried. -/
structure NameMap where
  rules : List NameRule

namespace NameMap

def rootMark : List Char := "<rootDir>".toList

/-- A replacement with the directory of the project put in. -/
def withRoot (root : Option String) (replacement : List Char) : List Char :=
  match root with
  | some root => replaceAll rootMark root.toList replacement
  | none => replacement

/-- The rules with the given patterns and replacements; the first text that is no pattern is an
error. -/
def ofPairs (root : Option String) : List (String × String) → Except String NameMap
  | [] => .ok ⟨[]⟩
  | (text, replacement) :: rest =>
    match Pattern.parse? text with
    | none => .error text
    | some pattern => do
      let ⟨rules⟩ ← ofPairs root rest
      .ok ⟨⟨pattern, Pattern.templateOf (withRoot root replacement.toList)⟩ :: rules⟩

/-- What a rule makes of a name that it knows. -/
def applyRule? (name : String) (rule : NameRule) : Option String :=
  (rule.pattern.captures? name).map fun found => String.ofList (found.expand rule.template)

/-- A name as the rules say it is to be read. -/
def rewrite (map : NameMap) (name : String) : String :=
  (map.rules.findSome? (applyRule? name)).getD name

end NameMap

end SingleFile
