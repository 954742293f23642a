import SingleFile.Component.Block
import SingleFile.Log
import SingleFile.Text.Blank
import SingleFile.Text.Search

/-!
# Outline of a component

Which blocks of a component take part in its module: where the body comes from, the styles that
are registered, and whether the component is functional.
-/

namespace SingleFile

inductive BodySource where
  | setup
  | plain
  | placeholder
deriving DecidableEq, Repr

def BodySource.name : BodySource → String
  | .setup => "Setup"
  | .plain => "Plain"
  | .placeholder => "Placeholder"

/-- Whether a text starts with `functional:`, white space and `true`. -/
def startsFunctional (cs : List Char) : Bool :=
  match stripPrefix? "functional:".toList cs with
  | some rest => (stripPrefix? "true".toList (trimStart rest)).isSome
  | none => false

/-- Whether a text has `functional: true` anywhere, with any white space after the colon. -/
def mentionsFunctional : List Char → Bool
  | [] => false
  | c :: r => startsFunctional (c :: r) || mentionsFunctional r

namespace Component

/-- A setup script supersedes a plain one. -/
def bodySource (c : Component) : BodySource :=
  if c.setupScript.isSome then .setup
  else if c.script.isSome then .plain
  else .placeholder

/-- The styles that register a module, in the order of the file. -/
def moduleStyles (c : Component) : List StyleBlock := c.styles.filter (·.moduleName.isSome)

def plainStyles (c : Component) : List StyleBlock := c.styles.filter (·.moduleName.isNone)

/-- A component is functional if its template says so, or the text of its plain script does. -/
def isFunctional (c : Component) : Bool :=
  (c.template.any (·.functional)) || (c.script.any fun s => mentionsFunctional s.content.toList)

def problemEvents (c : Component) : List Event :=
  c.problems.map fun p => ⟨.warn, p.message, [("file", c.filename), ("code", p.code)]⟩

/-- What is said about the parts that a component is made of. -/
def outlineEvents (c : Component) : List Event :=
  let dropped := c.plainStyles.length
  (if dropped = 0 then []
    else [⟨.debug, "dropping styles without a module",
      [("file", c.filename), ("count", toString dropped)]⟩]) ++
  [⟨.debug, "routed component blocks",
    [("file", c.filename), ("script", c.bodySource.name),
      ("template", truthText c.template.isSome), ("styles", toString c.moduleStyles.length),
      ("custom_blocks", toString c.customBlocks.length),
      ("functional", truthText c.isFunctional)]⟩]

end Component

end SingleFile
