import SingleFile.Text.Blank
import SingleFile.Text.Search
import SingleFile.Text.Span

/-!
# Cursors

A cursor stands at a byte offset of a text and holds what is left of it.  Readers cut the left
text in two, what they take and what remains; the cursor moves by what was taken.
-/

namespace SingleFile

def isLetter (c : Char) : Bool := ('a' ≤ c && c ≤ 'z') || ('A' ≤ c && c ≤ 'Z')

def isDigit (c : Char) : Bool := '0' ≤ c && c ≤ '9'

/-- The longest part at the start whose characters have a property, and the rest. -/
def spanWhile (p : Char → Bool) (cs : List Char) : List Char × List Char :=
  (cs.takeWhile p, cs.dropWhile p)

/-- What stands before a pattern, and the rest from the pattern on. -/
def spanUntil (pattern : List Char) : List Char → List Char × List Char
  | [] => ([], [])
  | c :: r =>
    if (stripPrefix? pattern (c :: r)).isSome then ([], c :: r)
    else
      let (a, b) := spanUntil pattern r
      (c :: a, b)

/-- A place in a text: its byte offset and what is left. -/
structure Cursor where
  offset : Nat
  rest : List Char
deriving Repr

namespace Cursor

def ofText (text : String) : Cursor := ⟨0, text.toList⟩

/-- Moves over `taken`, to where `rest` is left. -/
def move (cursor : Cursor) (taken rest : List Char) : Cursor :=
  ⟨cursor.offset + byteLength taken, rest⟩

def atEnd (cursor : Cursor) : Bool := cursor.rest.isEmpty

def peek? (cursor : Cursor) : Option Char := cursor.rest.head?

def next (cursor : Cursor) : Cursor :=
  match cursor.rest with
  | c :: r => cursor.move [c] r
  | [] => cursor

def takeWhile (cursor : Cursor) (p : Char → Bool) : List Char × Cursor :=
  let (a, b) := spanWhile p cursor.rest
  (a, cursor.move a b)

def skipBlank (cursor : Cursor) : Cursor := (cursor.takeWhile isBlank).2

def startsWith (cursor : Cursor) (pattern : String) : Bool :=
  (stripPrefix? pattern.toList cursor.rest).isSome

def consume? (cursor : Cursor) (pattern : String) : Option Cursor :=
  (stripPrefix? pattern.toList cursor.rest).map fun rest => cursor.move pattern.toList rest

/-- Moves over a pattern that comes next in any ASCII case. -/
def consumeFold? (cursor : Cursor) (pattern : String) : Option Cursor :=
  (stripPrefixFold? pattern.toList cursor.rest).map fun rest => cursor.move pattern.toList rest

def consume (cursor : Cursor) (pattern : String) : Cursor := (cursor.consume? pattern).getD cursor

def takeUntil (cursor : Cursor) (pattern : String) : List Char × Cursor :=
  let (a, b) := spanUntil pattern.toList cursor.rest
  (a, cursor.move a b)

def spanFrom (cursor : Cursor) (start : Nat) : Span := ⟨start, cursor.offset⟩

end Cursor

end SingleFile
