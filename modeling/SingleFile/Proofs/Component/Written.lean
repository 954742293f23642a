import SingleFile.Component.Reader

/-!
# Written components

A component file as its author writes it: blocks, with comments and other text around them
(`Piece`), each piece with its text (`Piece.render`).  `Component.ofWritten` says which component
such a file is: of the template and of each kind of script the first one, of styles and custom
blocks all (`Role`).  `Component.ofWritten_append` says what one more block adds.
-/

namespace SingleFile

/-! ### Blocks and what stands around them -/

/-- The value of an attribute, after an equals sign and between double quotes. -/
def renderValue : Option String → List Char
  | none => []
  | some v => '=' :: '"' :: (v.toList ++ ['"'])

/-- An attribute in a start tag, after a space. -/
def Attribute.render (a : Attribute) : List Char := ' ' :: (a.name.toList ++ renderValue a.value)

structure WrittenBlock where
  tag : String
  attributes : List Attribute
  content : String
  closesItself : Bool

/-- The first character and all others of a name have their properties. -/
def IsName (first next : Char → Bool) (name : List Char) : Prop :=
  ∃ c r, name = c :: r ∧ first c = true ∧ ∀ d ∈ r, next d = true

/-- A mark stands somewhere in a text, in any ASCII case, and there a name ends. -/
def HasMark (mark cs : List Char) : Prop :=
  ∃ a m d b, cs = a ++ m ++ d :: b ∧ m.map lowerAscii = mark.map lowerAscii ∧
    Markup.endsName [d] = true

namespace WrittenBlock

/-- The tag in small letters. -/
def kind (w : WrittenBlock) : String := String.ofList (w.tag.toList.map lowerAscii)

def opening (w : WrittenBlock) : List Char :=
  '<' :: (w.tag.toList ++ (w.attributes.flatMap Attribute.render ++
    if w.closesItself then "/>".toList else ">".toList))

def closing (w : WrittenBlock) : List Char :=
  if w.closesItself then [] else '<' :: '/' :: (w.tag.toList ++ ">".toList)

def render (w : WrittenBlock) : List Char := w.opening ++ w.content.toList ++ w.closing

/-- What makes a block readable: its names are names, its values stand between double quotes, and
no tag of its own name stands in its content. -/
structure Sound (w : WrittenBlock) : Prop where
  tag : IsName Markup.startsTag Markup.inTag w.tag.toList
  name : ∀ a ∈ w.attributes, IsName Markup.startsAttribute Markup.inAttribute a.name.toList
  value : ∀ a ∈ w.attributes, ∀ v ∈ a.value, '"' ∉ v.toList ∧ '\\' ∉ v.toList
  unclosed : ¬ HasMark ('<' :: '/' :: w.tag.toList) w.content.toList
  flat : w.kind ≠ "script" → w.kind ≠ "style" → ¬ HasMark ('<' :: w.tag.toList) w.content.toList
  empty : w.closesItself = true → w.content = ""

/-- The first attribute with a name, in any ASCII case. -/
def first? (w : WrittenBlock) (name : String) : Option Attribute :=
  w.attributes.find? fun a => equalFold a.name.toList name.toList

theorem value?_attributes (w : WrittenBlock) (name : String) :
    Attribute.value? name w.attributes = (w.first? name).bind (·.value) := rfl

theorem has_attributes (w : WrittenBlock) (name : String) :
    Attribute.has name w.attributes = (w.first? name).isSome :=
  Bool.eq_iff_iff.2 (by simp [Attribute.has, first?])

end WrittenBlock

/-- A piece of a component file. -/
inductive Piece where
  | text (cs : List Char)
  | comment (body : List Char)
  | block (w : WrittenBlock)

namespace Piece

def render : Piece → List Char
  | .text cs => cs
  | .comment body => "<!--".toList ++ (body ++ "-->".toList)
  | .block w => w.render

/-- Text starts no tag, and a comment ends at its end only. -/
def Sound : Piece → Prop
  | .text cs => '<' ∉ cs
  | .comment body => ¬ "-->".toList <:+: body
  | .block w => w.Sound

end Piece

/-- The text of a component file. -/
def renderPieces (ps : List Piece) : List Char := ps.flatMap Piece.render

/-! ### The component of a file -/

/-- What a block is to its component. -/
inductive Role where
  | template
  | script
  | setupScript
  | style
  | custom
deriving DecidableEq, Repr

/-- The name of a role that only one block of a component has. -/
def Role.single? : Role → Option String
  | .template => some "template"
  | .script => some "script"
  | .setupScript => some "script setup"
  | .style | .custom => none

structure PlacedBlock extends WrittenBlock where
  /-- the text of the file before the block -/
  before : List Char

/-- The blocks of a file, in order. -/
def placed (before : List Char) : List Piece → List PlacedBlock
  | [] => []
  | .block w :: ps => ⟨w, before⟩ :: placed (before ++ w.render) ps
  | p :: ps => placed (before ++ p.render) ps

namespace PlacedBlock

variable (b : PlacedBlock)

def role : Role :=
  if b.kind = "template" then .template
  else if b.kind = "script" then if (b.first? "setup").isSome then .setupScript else .script
  else if b.kind = "style" then .style
  else .custom

def span : Span := ⟨byteLength b.before, byteLength (b.before ++ b.render)⟩

def beforeContent : List Char := b.before ++ b.opening

def src : Option String := ((b.first? "src").bind (·.value)).filter (!·.isEmpty)

def toBlock : Block where
  span := b.span
  contentSpan := ⟨byteLength b.beforeContent, byteLength (b.beforeContent ++ b.content.toList)⟩
  content := b.content
  attributes := b.attributes
  lang := (b.first? "lang").bind (·.value)
  src := b.src
  map := none

def toTemplate : TemplateBlock := { b.toBlock with functional := (b.first? "functional").isSome }

/-- Each character of a script is mapped to where it stands in the file. -/
def toScript (filename source : String) : ScriptBlock :=
  { b.toBlock with
    map := some (blockMap filename source (breaks b.beforeContent) b.content.toList)
    setup := (b.first? "setup").isSome }

/-- A style is a module if it has the attribute, and its name is not empty. -/
def toStyle : StyleBlock :=
  { b.toBlock with
    isScoped := (b.first? "scoped").isSome
    moduleName := (b.first? "module").map fun a => (a.value.filter (!·.isEmpty)).getD "$style" }

def toCustom : CustomBlock := { b.toBlock with kind := b.kind }

/-- A block that is elsewhere has no content here. -/
def contentProblems : List Problem :=
  if b.src.isSome && !allBlank b.content.toList then [⟨.sourceWithContent, b.kind, b.span⟩] else []

/-- A role that only one block can have is not given twice. -/
def roleProblems (given : List Role) : List Problem :=
  match b.role.single? with
  | some name => if b.role ∈ given then [⟨.duplicate, name, b.span⟩] else []
  | none => []

/-- What is wrong with a block, where the blocks before it have the given roles. -/
def problems (given : List Role) : List Problem := b.contentProblems ++ b.roleProblems given

end PlacedBlock

/-- What is wrong with blocks, where the blocks before them have the given roles. -/
def problemsAfter (given : List Role) : List PlacedBlock → List Problem
  | [] => []
  | b :: bs => b.problems given ++ problemsAfter (given ++ [b.role]) bs

theorem problemsAfter_append (given : List Role) (bs : List PlacedBlock) (b : PlacedBlock) :
    problemsAfter given (bs ++ [b]) =
      problemsAfter given bs ++ b.problems (given ++ bs.map (·.role)) := by
  induction bs generalizing given with
  | nil => simp [problemsAfter]
  | cons a bs ih => simp [problemsAfter, ih]

namespace Component

/-- The component with given blocks. -/
def ofWritten (filename source : String) (bs : List PlacedBlock) : Component where
  filename := filename
  source := source
  template := (bs.find? (·.role = .template)).map (·.toTemplate)
  script := (bs.find? (·.role = .script)).map (·.toScript filename source)
  setupScript := (bs.find? (·.role = .setupScript)).map (·.toScript filename source)
  styles := (bs.filter (·.role = .style)).map (·.toStyle)
  customBlocks := (bs.filter (·.role = .custom)).map (·.toCustom)
  problems := problemsAfter [] bs

variable {filename source : String} {bs : List PlacedBlock} {b : PlacedBlock} {lines : LineIndex}

theorem isSome_find?_role {r : Role} :
    (bs.find? (·.role = r)).isSome = true ↔ r ∈ bs.map (·.role) := by
  rw [List.find?_isSome]
  simp

/-- A role is given to a first block or to none. -/
theorem find?_role_cases (bs : List PlacedBlock) (r : Role) :
    (r ∈ bs.map (·.role) ∧ ∃ x, bs.find? (·.role = r) = some x) ∨
      (r ∉ bs.map (·.role) ∧ bs.find? (·.role = r) = none) := by
  cases h : bs.find? (·.role = r) with
  | some x => exact .inl ⟨isSome_find?_role.1 (by rw [h]; rfl), x, rfl⟩
  | none => exact .inr ⟨fun hm => by simpa [h] using isSome_find?_role.2 hm, rfl⟩

theorem find?_role_append (bs : List PlacedBlock) (b : PlacedBlock) (r : Role) :
    (bs ++ [b]).find? (·.role = r) =
      (bs.find? (·.role = r)).or (if b.role = r then some b else none) := by
  rw [List.find?_append]
  by_cases h : b.role = r <;> simp [h]

theorem filter_role_append (bs : List PlacedBlock) (b : PlacedBlock) (r : Role) :
    (bs ++ [b]).filter (·.role = r) =
      bs.filter (·.role = r) ++ (if b.role = r then [b] else []) := by
  rw [List.filter_append]
  by_cases h : b.role = r <;> simp [h]

/-- One more block is put in its place, after its content has been checked. -/
theorem ofWritten_append (hl : (lines.position (byteLength b.beforeContent)).line =
    breaks b.beforeContent) :
    addBlock { ofWritten filename source bs with
        problems := (ofWritten filename source bs).problems ++ b.contentProblems }
      lines b.kind b.toBlock = ofWritten filename source (bs ++ [b]) := by
  unfold addBlock
  simp only [show b.toBlock.contentSpan.start = byteLength b.beforeContent from rfl, hl,
    show b.toBlock.attributes = b.attributes from rfl, WrittenBlock.has_attributes,
    WrittenBlock.value?_attributes]
  unfold ofWritten
  simp only [find?_role_append, filter_role_append, problemsAfter_append, List.nil_append,
    PlacedBlock.problems, PlacedBlock.roleProblems, Option.isSome_map, isSome_find?_role]
  by_cases ht : b.kind = "template"
  · have hr : b.role = .template := by simp [PlacedBlock.role, ht]
    rw [if_pos ht, hr]
    rcases find?_role_cases bs .template with ⟨hm, x, hx⟩ | ⟨hm, hx⟩
    · simp [hx, hm, Role.single?, PlacedBlock.toBlock]
    · simp [hx, hm, Role.single?, PlacedBlock.toTemplate]
  rw [if_neg ht]
  by_cases hs : b.kind = "script"
  · rw [if_pos hs]
    by_cases hset : (b.first? "setup").isSome = true
    · have hr : b.role = .setupScript := by simp [PlacedBlock.role, hs, hset]
      rw [if_pos hset, hr]
      rcases find?_role_cases bs .setupScript with ⟨hm, x, hx⟩ | ⟨hm, hx⟩
      · simp [hx, hm, Role.single?, PlacedBlock.toBlock]
      · simp [hx, hm, Role.single?, PlacedBlock.toScript, PlacedBlock.toBlock]
    · have hr : b.role = .script := by simp [PlacedBlock.role, hs, hset]
      rw [if_neg hset, hr]
      rcases find?_role_cases bs .script with ⟨hm, x, hx⟩ | ⟨hm, hx⟩
      · simp [hx, hm, Role.single?, PlacedBlock.toBlock]
      · simp [hx, hm, Role.single?, PlacedBlock.toScript, PlacedBlock.toBlock]
  rw [if_neg hs]
  by_cases hst : b.kind = "style"
  · have hr : b.role = .style := by simp [PlacedBlock.role, hst]
    rw [if_pos hst, hr]
    cases hf : b.first? "module" with
    | none => simp [hf, Role.single?, PlacedBlock.toStyle]
    | some a => simp [hf, Role.single?, PlacedBlock.toStyle]
  · have hr : b.role = .custom := by simp [PlacedBlock.role, ht, hs, hst]
    rw [if_neg hst, hr]
    simp [Role.single?, PlacedBlock.toCustom]

end Component

end SingleFile
