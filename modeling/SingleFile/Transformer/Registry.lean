import SingleFile.Transformer.Basic

/-!
# The registry of transformers

Transformers are registered for patterns of languages, and the first pattern that occurs in the name
of a language decides.  Those that the options name come before those that are supplied directly.
-/

namespace SingleFile

/-- What a transformation does: it may change the state of the compilers, wait, and fail. -/
abbrev Action (κ α : Type) := Routine (Session κ) TransformFault α

/-- The work of a compiler or transformer as part of a transformation. -/
def Work.act (work : Work κ α) : Action κ α := work.mapError .compiler

/-- Transformers with their patterns, in the order in which they are tried. -/
structure Registry (κ : Type) where
  entries : List (Pattern × Transformer κ) := []

namespace Registry

/-- Adds a transformer after the others.  One that creates another is replaced by that. -/
def register (registry : Registry κ) (text : String) (transformer : Transformer κ) :
    Action κ (Registry κ) :=
  match Pattern.parse? text with
  | none => .fail (.settings (.transformPattern text))
  | some pattern =>
    if transformer.hooks.isEmpty then .fail (.settings .noHooks)
    else do
      let used ← if transformer.hooks.create then Work.act transformer.create else pure transformer
      return ⟨registry.entries ++ [(pattern, used)]⟩

def find? (registry : Registry κ) (lang : String) : Option (Transformer κ) :=
  (registry.entries.find? fun e => e.1.occursIn lang).map (·.2)

def registerNamed (catalog : String → Option (Transformer κ)) :
    List (String × String) → Registry κ → Action κ (Registry κ)
  | [], registry => pure registry
  | (pattern, name) :: rest, registry =>
    match catalog name with
    | none => .fail (.settings (.unknownTransformer name pattern))
    | some t => do registerNamed catalog rest (← registry.register pattern t)

def registerSupplied :
    List (String × Transformer κ) → Registry κ → Action κ (Registry κ)
  | [], registry => pure registry
  | (pattern, t) :: rest, registry => do registerSupplied rest (← registry.register pattern t)

def ofOptions (options : Options) (catalog : String → Option (Transformer κ))
    (supplied : List (String × Transformer κ)) : Action κ (Registry κ) := do
  registerSupplied supplied (← registerNamed catalog options.transform {})

/-- The patterns in the order in which they are tried. -/
def patterns (registry : Registry κ) : List String := registry.entries.map (·.1.text)

end Registry

end SingleFile
