import SingleFile.Text.Quoted
import SingleFile.Transform

/-!
# Descriptions

How a transformer, its compilers and a registry are described, in one line or with one part on a
line.  What is not told is hinted at by two dots.
-/

namespace SingleFile

/-- A description: a truth value, a list of texts, or a record that does not tell all its fields. -/
inductive Description where
  | truth (b : Bool)
  | texts (items : List String)
  | record (name : String) (fields : List (String × Description))

namespace Description

def quoted (s : String) : String := String.ofList (Quoted.encode s.toList)

mutual

def line : Description → String
  | truth b => truthText b
  | texts items => "[" ++ ", ".intercalate (items.map quoted) ++ "]"
  | record name fields => name ++ " \x7b " ++ fieldLines fields ++ ".. \x7d"

def fieldLines : List (String × Description) → String
  | [] => ""
  | (name, d) :: rest => name ++ ": " ++ d.line ++ ", " ++ fieldLines rest

end

def indent (level : Nat) : String := String.ofList (List.replicate (4 * level) ' ')

mutual

def pretty (level : Nat) : Description → String
  | truth b => truthText b
  | texts [] => "[]"
  | texts items =>
    "[\n" ++ String.join (items.map fun s => indent (level + 1) ++ quoted s ++ ",\n") ++
      indent level ++ "]"
  | record name fields =>
    name ++ " \x7b\n" ++ prettyFields (level + 1) fields ++ indent (level + 1) ++ "..\n" ++
      indent level ++ "\x7d"

def prettyFields (level : Nat) : List (String × Description) → String
  | [] => ""
  | (name, d) :: rest =>
    indent level ++ name ++ ": " ++ d.pretty level ++ ",\n" ++ prettyFields level rest

end

end Description

/-- Which of the compilers that have to be supplied are there. -/
def Compilers.description (c : Compilers κ) : Description :=
  .record "Compilers" [("typescript", .truth c.typeScript.isSome),
    ("script_setup", .truth c.setup.isSome), ("template", .truth c.template.isSome)]

/-- The compilers of a transformer and the patterns that are supplied directly. -/
def SingleFileTransformer.description (t : SingleFileTransformer κ) : Description :=
  .record "SfcTransformer" [("compilers", t.compilers.description),
    ("inline", .texts (t.supplied.map (·.1)))]

def Registry.description (r : Registry κ) : Description := .texts r.patterns

end SingleFile
