import SingleFile.Script.Operator

/-!
# Binding patterns

The patterns that declarations and parameters bind, with the names in them from left to right.
-/

namespace SingleFile.Script.Grammar

open Reader

variable (g : Grammar)

def boundElements : Nat → Option Nat → Reader (List Name)
  | 0, _ => unexpected
  | fuel + 1, rest => do
    if ← eatSign "]" then return []
    if ← eatSign "," then return ← boundElements fuel rest
    match rest with
    | some offset => note offset
    | none => pure ()
    let s ← start
    let spread ← eatSign "..."
    let names ← if spread then g.pattern else g.boundElement
    if ← eatSign "]" then return names
    let comma ← start
    expectSign ","
    if spread && (← isSign "]") then note comma
    return names ++ (← boundElements fuel (if spread then some s else rest))

/-- Reads a property of an object pattern: its names and, of a rest, whether it is a single name. -/
def boundProperty : Reader (List Name × Option Bool) := do
  if ← eatSign "..." then
    let single := (wordOf (← token)).isSome
    return (← g.pattern, some single)
  match ← g.propertyName with
  | none =>
    expectSign ":"
    return (← g.boundElement, none)
  | some name =>
    if ← eatSign ":" then return (← g.boundElement, none)
    if ← eatSign "=" then g.assignedValue
    else if isReserved name.text || strictWords.contains name.text then note name.span.start
    return ([name], none)

def boundProperties : Nat → Reader (List Name)
  | 0 => unexpected
  | fuel + 1 => do
    if ← eatSign "\x7d" then return []
    let s ← start
    let (names, rest) ← g.boundProperty
    if ← eatSign "\x7d" then
      if rest = some false then throw s
      return names
    let comma ← start
    expectSign ","
    if ← eatSign "\x7d" then
      match rest with
      | some single => if single then note comma else throw s
      | none => pure ()
      return names
    if rest.isSome then note s
    return names ++ (← boundProperties fuel)

def bindingPattern : Reader (List Name) := do
  match (← token).lexeme with
  | .sign "[" =>
    bump
    g.boundElements g.fuel none
  | .sign "\x7b" =>
    bump
    g.boundProperties g.fuel
  | _ => return [← bindingName]

end SingleFile.Script.Grammar
