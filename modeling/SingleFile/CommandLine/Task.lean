import SingleFile.CommandLine.Options

/-!
# Tasks

What a command line asks for: to transform a component, or to print its cache key.
-/

namespace SingleFile.CommandLine

/-- How the result of a transformation is written. -/
inductive OutputForm where
  | json
  | code
deriving DecidableEq, Repr

structure Transformation where
  esm : Bool
  suspending : Bool
  bridge : Option String
  bridgeArgs : List String
  bridgeStyles : Bool
  form : OutputForm
deriving Repr

inductive Purpose where
  | transform (how : Transformation)
  | cacheKey
deriving Repr

/-- A task: a component, the file of its settings, and what is to be done. -/
structure Task where
  file : String
  settingsFile : Option String
  purpose : Purpose
deriving Repr

def acceptsPath (value : String) : Bool := value ≠ ""

def sharedRules : List OptionRule :=
  [{ name := "config", letter := some 'c', takes := .value, accepts := acceptsPath },
   { name := "verbose", letter := some 'v' }]

def programLevel : Level := ⟨sharedRules, true⟩

def transformLevel : Level :=
  ⟨sharedRules ++
    [{ name := "esm" }, { name := "async" }, { name := "bridge", takes := .value },
     { name := "bridge-arg", takes := .anyValues }, { name := "bridge-styles" },
     { name := "output", takes := .value, accepts := fun v => v = "json" || v = "code" }], false⟩

def cacheKeyLevel : Level := ⟨sharedRules, false⟩

def onlyPath : List String → Except Stop String
  | [path] => if acceptsPath path then .ok path else .error .usage
  | _ => .error .usage

/-- How a component is to be transformed.  What is said about a bridge needs a bridge. -/
def Transformation.ofGiven (g : Given) : Except Stop Transformation :=
  let bridge := g.value? "bridge"
  if bridge.isNone && (g.has "bridge-arg" || g.has "bridge-styles") then .error .usage
  else .ok {
    esm := g.has "esm", suspending := g.has "async", bridge
    bridgeArgs := g.values "bridge-arg", bridgeStyles := g.has "bridge-styles"
    form := if g.value? "output" = some "code" then .code else .json }

/-- The task of a command, where `above` was given before its name. -/
def Task.ofCommand (above : Given) (name : String) (args : List String) : Except Stop Task := do
  let settingsFile (g : Given) : Option String :=
    (g.value? "config").orElse fun _ => above.value? "config"
  match name with
  | "transform" =>
    let g ← transformLevel.read args
    return ⟨← onlyPath g.words, settingsFile g, .transform (← Transformation.ofGiven g)⟩
  | "cache-key" =>
    let g ← cacheKeyLevel.read args
    return ⟨← onlyPath g.words, settingsFile g, .cacheKey⟩
  | "help" =>
    match args with
    | [] | ["transform"] | ["cache-key"] | ["help"] => throw .help
    | _ => throw .usage
  | _ => throw .usage

def Task.ofArgs (args : List String) : Except Stop Task := do
  let above ← programLevel.read args
  match above.rest with
  | name :: rest => Task.ofCommand above name rest
  | [] => throw .usage

end SingleFile.CommandLine
