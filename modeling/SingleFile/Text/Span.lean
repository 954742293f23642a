/-!
# Spans

A span is a half-open range of byte offsets into a text.  `splitBytes` cuts a text at a byte
offset that stands between two characters, and `Span.text?` is the part of a text that a span
covers.
-/

namespace SingleFile

/-- The number of bytes of a text in UTF-8. -/
def byteLength : List Char → Nat
  | [] => 0
  | c :: r => c.utf8Size + byteLength r

@[simp] theorem byteLength_nil : byteLength [] = 0 := rfl

@[simp] theorem byteLength_cons (c : Char) (r : List Char) :
    byteLength (c :: r) = c.utf8Size + byteLength r := rfl

@[simp] theorem byteLength_append (a b : List Char) :
    byteLength (a ++ b) = byteLength a + byteLength b := by
  induction a with
  | nil => simp
  | cons c r ih => simp [ih, Nat.add_assoc]

/-- A half-open range of byte offsets. -/
structure Span where
  start : Nat
  stop : Nat
deriving DecidableEq, Repr, Inhabited

/-- Cuts a text at a byte offset; nothing where the offset is outside it or inside a character. -/
def splitBytes : Nat → List Char → Option (List Char × List Char)
  | 0, cs => some ([], cs)
  | _ + 1, [] => none
  | n + 1, c :: r =>
    if c.utf8Size ≤ n + 1 then
      (splitBytes (n + 1 - c.utf8Size) r).map fun (a, b) => (c :: a, b)
    else none

namespace Span

def point (offset : Nat) : Span := ⟨offset, offset⟩

def length (s : Span) : Nat := s.stop - s.start

def isEmpty (s : Span) : Bool := s.start == s.stop

def ends (s : Span) : Nat × Nat := (s.start, s.stop)

def ofEnds (e : Nat × Nat) : Span := ⟨e.1, e.2⟩

@[simp] theorem ofEnds_ends (s : Span) : ofEnds s.ends = s := rfl

/-- The part of a text that the span covers, where its ends stand between characters. -/
def text? (s : Span) (cs : List Char) : Option (List Char) := do
  let (_, rest) ← splitBytes s.start cs
  let (part, _) ← splitBytes (s.stop - s.start) rest
  pure part

end Span

end SingleFile
