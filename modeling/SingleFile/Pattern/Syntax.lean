import SingleFile.Text.Blank
import SingleFile.Text.Unicode

/-!
# Patterns

What a pattern is made of: sets of characters, places between characters, and the ways to join
patterns.  A set may be folded, which makes it take every letter of which it holds some form.
-/

namespace SingleFile

/-- A property of characters that a pattern can name. -/
inductive CharSet.Property where
  | word
  | digit
  | blank
  | letter
  | upper
  | lower
  | mark
  | connector
deriving DecidableEq, Repr

inductive CharSet where
  | range (first last : Nat)
  | property (p : CharSet.Property)
  | complement (s : CharSet)
  | union (a b : CharSet)
  | both (a b : CharSet)
  | folded (s : CharSet)
  | empty
deriving Repr

namespace CharSet

def Property.holds (c : Char) : Property → Bool
  | .word => Unicode.isWord c
  | .digit => Unicode.isDigit c
  | .blank => isBlank c
  | .letter => Unicode.isLetter c
  | .upper => Unicode.isUpper c
  | .lower => Unicode.isLower c
  | .mark => Unicode.isMark c
  | .connector => c = '_' || Unicode.within Unicode.connectors c.toNat

def contains : CharSet → Char → Bool
  | range first last, c => first ≤ c.toNat && c.toNat ≤ last
  | property p, c => p.holds c
  | complement s, c => !s.contains c
  | union a b, c => a.contains c || b.contains c
  | both a b, c => a.contains c && b.contains c
  | folded s, c => (Unicode.caseForms c).any s.contains
  | empty, _ => false

def single (c : Char) : CharSet := range c.toNat c.toNat

def ofChars (cs : List Char) : CharSet := cs.foldr (fun c s => union (single c) s) empty

end CharSet

/-- A place between two characters. -/
inductive Place where
  | textStart
  | textStop
  | lineStart
  | lineStop
  | lineStartReturn
  | lineStopReturn
  | wordEdge
  | noWordEdge
  | wordStart
  | wordStop
  | wordStartHalf
  | wordStopHalf
deriving DecidableEq, Repr

/-- A pattern without its text.  `loop` repeats at least once; `greedy` prefers one more round to
going on. -/
inductive Pattern.Node where
  | nothing
  | one (s : CharSet)
  | place (p : Place)
  | group (index : Nat) (body : Pattern.Node)
  | sequence (a b : Pattern.Node)
  | either (a b : Pattern.Node)
  | optional (greedy : Bool) (body : Pattern.Node)
  | loop (greedy : Bool) (body : Pattern.Node)
deriving Repr

/-- A pattern: its text, what it says, and the numbers of its named groups. -/
structure Pattern where
  text : String
  node : Pattern.Node
  names : List (String × Nat)
deriving Repr

namespace Pattern.Node

def times : Nat → Node → Node
  | 0, _ => nothing
  | 1, body => body
  | n + 1, body => sequence body (times n body)

/-- A pattern at most some number of times in a row. -/
def upTo (greedy : Bool) : Nat → Node → Node
  | 0, _ => nothing
  | 1, body => optional greedy body
  | n + 1, body => optional greedy (sequence body (upTo greedy n body))

def atLeast (greedy : Bool) : Nat → Node → Node
  | 0, body => optional greedy (loop greedy body)
  | 1, body => loop greedy body
  | n + 1, body => sequence body (atLeast greedy n body)

end Pattern.Node

end SingleFile
