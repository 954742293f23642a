import SingleFile.Order.Partition
import SingleFile.Text.Position
import SingleFile.Text.Span

/-!
# Line index

`LineIndex.ofText` keeps the byte offset at which each line of a text starts, and
`LineIndex.position` reads a byte offset as a line and a byte column, by a search among the starts.
-/

namespace SingleFile

/-- The byte offsets at which the lines of a text start, in order. -/
structure LineIndex where
  starts : List Nat
deriving Repr

namespace LineIndex

/-- The offsets just after each line break of a text that starts at `offset`. -/
def startsAfter : Nat → List Char → List Nat
  | _, [] => []
  | offset, c :: r =>
    let next := offset + c.utf8Size
    if c = '\n' then next :: startsAfter next r else startsAfter next r

/-- The first line starts at 0, every other one after a line break. -/
def ofText (text : String) : LineIndex := ⟨0 :: startsAfter 0 text.toList⟩

def lineCount (index : LineIndex) : Nat := index.starts.length

/-- The line of an offset is the last one that starts at or before it; the column is the
distance in bytes. -/
def position (index : LineIndex) (offset : Nat) : Position :=
  let line := partitionPoint (· ≤ offset) index.starts - 1
  ⟨line, offset - index.starts.getD line 0⟩

end LineIndex

/-- A position for display: lines from one, columns from zero. -/
def Position.display (p : Position) : Nat × Nat := (p.line + 1, p.column)

end SingleFile
