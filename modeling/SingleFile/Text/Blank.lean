/-!
# White space

`isBlank` is the Unicode property `White_Space`.  Trimming and blankness of texts are read
off it.  Nothing else in the library decides what a space is, except where a format names
the ASCII spaces only.
-/

namespace SingleFile

/-- The characters with the Unicode property `White_Space`. -/
def isBlank (c : Char) : Bool :=
  let n := c.toNat
  (9 ≤ n && n ≤ 13) || n == 0x20 || n == 0x85 || n == 0xA0 || n == 0x1680 ||
  (0x2000 ≤ n && n ≤ 0x200A) || n == 0x2028 || n == 0x2029 || n == 0x202F ||
  n == 0x205F || n == 0x3000

def trimStart (cs : List Char) : List Char := cs.dropWhile isBlank

def trimEnd (cs : List Char) : List Char := (cs.reverse.dropWhile isBlank).reverse

/-- The text without white space at either end. -/
def trim (cs : List Char) : List Char := trimEnd (trimStart cs)

/-- A text of white space only. -/
def allBlank (cs : List Char) : Bool := cs.all isBlank

end SingleFile
