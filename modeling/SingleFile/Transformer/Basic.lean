import SingleFile.Compiling.Compiler

/-!
# Transformers

A transformer takes over part of the work for the languages it is registered for.  It says which
hooks it has, and only those are called.
-/

namespace SingleFile

structure Hooks where
  preprocess : Bool := false
  process : Bool := false
  processAsync : Bool := false
  postprocess : Bool := false
  create : Bool := false
deriving DecidableEq, Repr

namespace Hooks

def canProcess (h : Hooks) : Bool := h.process || h.processAsync

def isEmpty (h : Hooks) : Bool := h = {}

def bits (h : Hooks) : Nat :=
  h.preprocess.toNat + 2 * h.process.toNat + 4 * h.processAsync.toNat +
    8 * h.postprocess.toNat + 16 * h.create.toNat

end Hooks

/-- The text of a style, with the file and the attributes it comes with. -/
structure StyleText where
  content : String
  file : String
  settings : Settings
  attributes : List Attribute

/-- What a transformer is asked to process: a script, a style, or all custom blocks of a kind with
the name of the component's options. -/
inductive HookInput where
  | script (source file : String) (settings : Settings)
  | style (text : StyleText)
  | customBlocks (blocks : List CustomBlock) (options file : String) (settings : Settings)

/-- What comes out: a script with its map, or plain text. -/
inductive HookOutput where
  | script (made : Fragment)
  | text (code : String)

def HookOutput.code : HookOutput → String
  | script made => made.code
  | text code => code

def HookOutput.fragment : HookOutput → Fragment
  | script made => made
  | text code => ⟨code, none⟩

/-- A transformer.  `create` makes the transformer that is used in its place. -/
structure Transformer (κ : Type) where
  hooks : Hooks
  preprocess : StyleText → Work κ String
  process : HookInput → Work κ HookOutput
  processAsync : HookInput → Work κ HookOutput
  postprocess : StyleText → Work κ String
  create : Routine (Session κ) CompilerFault (Transformer κ)

namespace Transformer

/-- The transformer that claims hooks without having any: texts stay, the rest fails. -/
def bare (hooks : Hooks) : Transformer κ where
  hooks
  preprocess text := .done text.content
  process _ := .fail (.message "transformer does not implement process()")
  processAsync _ := .fail (.message "transformer does not implement process()")
  postprocess text := .done text.content
  create := .fail (.message "transformer does not implement createTransformer()")

/-- Processes at a pace.  Where the hook for the pace is missing the other one is taken. -/
def processAt (t : Transformer κ) (pace : Pace) (input : HookInput) : Work κ HookOutput :=
  let suspends := match pace with
    | .blocking => !t.hooks.process
    | .suspending => t.hooks.processAsync
  if suspends then t.processAsync input else t.process input

end Transformer

end SingleFile
