import SingleFile.SourceMap.Basic
import SingleFile.Text.Span

/-!
# Blocks of a component file

A component file is a sequence of blocks: at most one template, one plain script and one setup
script, and any number of styles and custom blocks.  `Component` holds the blocks of a file
together with the problems found while reading it.
-/

namespace SingleFile

/-- An attribute of a start tag; without a value it is boolean. -/
structure Attribute where
  name : String
  value : Option String
deriving DecidableEq, Repr

/-- What all blocks have in common.  `span` covers the block with its tags, `contentSpan` what
stands between them. -/
structure Block where
  span : Span
  contentSpan : Span
  content : String
  attributes : List Attribute
  lang : Option String
  src : Option String
  map : Option SourceMap
deriving Repr

/-- The value of the first attribute with exactly this name. -/
def Block.attribute? (b : Block) (name : String) : Option String :=
  (b.attributes.find? (·.name == name)).bind (·.value)

def Block.hasAttribute (b : Block) (name : String) : Bool := b.attributes.any (·.name == name)

structure TemplateBlock extends Block where
  functional : Bool
deriving Repr

structure ScriptBlock extends Block where
  setup : Bool
deriving Repr

/-- A style; `moduleName` is the name under which its classes are registered. -/
structure StyleBlock extends Block where
  isScoped : Bool
  moduleName : Option String
deriving Repr

/-- A block of any other kind, named by its tag. -/
structure CustomBlock extends Block where
  kind : String
deriving Repr

/-- What can be wrong with the blocks of a file. -/
inductive Problem.Kind where
  | unclosed
  | duplicate
  | sourceWithContent
deriving DecidableEq, Repr

/-- Something wrong with a block; the rest of the file is read all the same. -/
structure Problem where
  kind : Problem.Kind
  block : String
  span : Span
deriving DecidableEq, Repr

def Problem.code (p : Problem) : String :=
  match p.kind with
  | .unclosed => "unclosed-tag"
  | .duplicate => "duplicate-block"
  | .sourceWithContent => "invalid-content"

def Problem.message (p : Problem) : String :=
  match p.kind with
  | .unclosed => "Element <" ++ p.block ++ "> is missing end tag."
  | .duplicate => "Single file component can contain only one <" ++ p.block ++ "> element"
  | .sourceWithContent =>
    "<" ++ p.block ++ "> cannot have both a src attribute and inline content"

/-- A component file, split into its blocks. -/
structure Component where
  filename : String
  source : String
  template : Option TemplateBlock := none
  script : Option ScriptBlock := none
  setupScript : Option ScriptBlock := none
  styles : List StyleBlock := []
  customBlocks : List CustomBlock := []
  problems : List Problem := []
deriving Repr

end SingleFile
