import SingleFile.Text.Span

/-!
# The parts of a module

A module is a list of items: statements, of which only the span and the names they declare are
kept, and the declarations by which a module imports and exports.
-/

namespace SingleFile.Script

structure Name where
  text : String
  span : Span
deriving DecidableEq, Repr

/-- What an import binds: the default export, the whole module, or an export by name. -/
inductive ImportBinding where
  | default (name : Name)
  | whole (name : Name)
  | named (imported : Option Span) (name : Name)
deriving DecidableEq, Repr

/-- What an export clause lists: a name, perhaps under another one, or the whole module. -/
inductive ExportBinding where
  | named (inner : Span) (outer : Option Span)
  | whole (outer : Span)
deriving DecidableEq, Repr

/-- An item of a module.  `start` is where the declaration or value after the keywords starts, and
`source` the string that names another module. -/
inductive Item where
  | statement (span : Span) (declared : List Name)
  | importing (span : Span) (bindings : List ImportBinding) (source : Span)
  | exportValue (span : Span) (start : Nat)
  | exportDefault (span : Span) (start : Nat) (name : Option Name)
  | exportDeclaration (span : Span) (start : Nat) (names : List Name)
  | exportNamed (span : Span) (bindings : List ExportBinding) (source : Option Span)
  | exportAll (span : Span) (source : Span)
deriving DecidableEq, Repr

def Item.span : Item → Span
  | .statement s _ | .importing s _ _ | .exportValue s _ | .exportDefault s _ _
  | .exportDeclaration s _ _ | .exportNamed s _ _ | .exportAll s _ => s

def ImportBinding.name : ImportBinding → Name
  | .default n | .whole n | .named _ n => n

/-- The names that an item binds at the top of the module. -/
def Item.bound : Item → List Name
  | .statement _ declared => declared
  | .importing _ bindings _ => bindings.map (·.name)
  | .exportDefault _ _ name => name.toList
  | .exportDeclaration _ _ names => names
  | .exportValue _ _ | .exportNamed _ _ _ | .exportAll _ _ => []

end SingleFile.Script
