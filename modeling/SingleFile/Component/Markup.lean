import SingleFile.Text.Cursor

/-!
# Markup of a component file

The readers for tag names, attributes, comments and the content of blocks.
-/

namespace SingleFile

namespace Markup

def startsTag (c : Char) : Bool := isLetter c || c = '_'

def inTag (c : Char) : Bool := isLetter c || isDigit c || c = '-' || c = '_' || c = ':'

def startsAttribute (c : Char) : Bool := isLetter c || c = '_' || c = ':' || c = '@' || c = '#'

def inAttribute (c : Char) : Bool :=
  isLetter c || isDigit c || c = '-' || c = '_' || c = ':' || c = '.' || c = '[' || c = ']'

def inUnquoted (c : Char) : Bool := !isBlank c && c ≠ '>' && c ≠ '/' && c ≠ '='

/-- A name that the text starts with, and the rest. -/
def name? (first next : Char → Bool) : List Char → Option (List Char × List Char)
  | c :: r => if first c then some (c :: r.takeWhile next, r.dropWhile next) else none
  | [] => none

/-- What stands before a closing quote, and the rest after it.  A backslash keeps the character
after it from closing; a value that is not closed takes the whole text. -/
def spanQuoted (quote : Char) : List Char → List Char × List Char
  | [] => ([], [])
  | '\\' :: c :: r =>
    let (a, b) := spanQuoted quote r
    ('\\' :: c :: a, b)
  | c :: r =>
    if c = quote then ([], r)
    else
      let (a, b) := spanQuoted quote r
      (c :: a, b)

/-- Where the reader of a block's content stands: in text, in the rest of a tag's name, or in a
start tag, where it matters whether the last character was a slash. -/
inductive Place where
  | text
  | closing (left : Nat)
  | opening (left : Nat)
  | tag (slash : Bool)
deriving DecidableEq, Repr

def endsName : List Char → Bool
  | [] => true
  | c :: _ => c = '>' || c = '/' || c = ' ' || c = '\t' || c = '\n' || c = '\r'

/-- Whether a text starts with a pattern, in any ASCII case, where a name ends. -/
def atTag (pattern cs : List Char) : Bool :=
  match stripPrefixFold? pattern cs with
  | some rest => endsName rest
  | none => false

/-- Whether the content of a block is text only, so that elements do not nest in it. -/
def isRawText (tag : List Char) : Bool := tag == "script".toList || tag == "style".toList

/-- Reads the content of a block up to its closing tag: the content, whether the tag was found,
and the rest from the tag on.  Elements of the same name nest, but not in raw text. -/
def contentFrom (tag : List Char) (depth : Nat) : Place → List Char →
    List Char × Bool × List Char
  | _, [] => ([], false, [])
  | .closing (n + 1), c :: r =>
    let (a, found, b) := contentFrom tag depth (.closing n) r
    (c :: a, found, b)
  | .opening (n + 1), c :: r =>
    let (a, found, b) := contentFrom tag depth (.opening n) r
    (c :: a, found, b)
  | place, c :: r =>
    let inTag := match place with
      | .tag _ | .opening _ => true
      | _ => false
    if inTag && c ≠ '>' then
      let (a, found, b) := contentFrom tag depth (.tag (c = '/')) r
      (c :: a, found, b)
    else
      let depth := if inTag && place ≠ .tag true then depth + 1 else depth
      if atTag ('<' :: '/' :: tag) (c :: r) then
        if depth = 0 then ([], true, c :: r)
        else
          let (a, found, b) := contentFrom tag (depth - 1) (.closing (tag.length + 1)) r
          (c :: a, found, b)
      else if !isRawText tag && atTag ('<' :: tag) (c :: r) then
        let (a, found, b) := contentFrom tag depth (.opening tag.length) r
        (c :: a, found, b)
      else
        let (a, found, b) := contentFrom tag depth .text r
        (c :: a, found, b)

def content (tag cs : List Char) : List Char × Bool × List Char := contentFrom tag 0 .text cs

end Markup

namespace Cursor

def tagName? (cursor : Cursor) : Option (List Char × Cursor) :=
  (Markup.name? Markup.startsTag Markup.inTag cursor.rest).map fun (a, b) => (a, cursor.move a b)

def attributeName? (cursor : Cursor) : Option (List Char × Cursor) :=
  (Markup.name? Markup.startsAttribute Markup.inAttribute cursor.rest).map
    fun (a, b) => (a, cursor.move a b)

def quoted? (cursor : Cursor) : Option (List Char × Char × Cursor) :=
  match cursor.rest with
  | q :: r =>
    if q = '"' ∨ q = '\'' then
      let (a, b) := Markup.spanQuoted q r
      -- the closing quote, where there is one, has been taken too
      some (a, q, ⟨cursor.offset + (byteLength cursor.rest - byteLength b), b⟩)
    else none
  | [] => none

def unquoted (cursor : Cursor) : List Char × Cursor := cursor.takeWhile Markup.inUnquoted

def comment? (cursor : Cursor) : Option (List Char × Cursor) :=
  (cursor.consume? "<!--").map fun c =>
    let (a, c) := c.takeUntil "-->"
    (a, c.consume "-->")

/-- Reads the content of a block up to its closing tag, and says whether it was found. -/
def content (cursor : Cursor) (tag : List Char) : List Char × Bool × Cursor :=
  let (a, found, b) := Markup.content tag cursor.rest
  (a, found, cursor.move a b)

end Cursor

end SingleFile
