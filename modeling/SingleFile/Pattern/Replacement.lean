import SingleFile.Pattern.Match

/-!
# Replacement texts

What stands for a match.  `Captures.expand` fills a template, in which `$$` is a dollar, and `$name`
and `${name}` are the text of a group by its number or name.  A replacement knows only `$N`, N being
all digits that follow; `templateOf` writes it as a template, in which every other dollar is plain.
-/

namespace SingleFile.Pattern

def isGroupDigit (c : Char) : Bool := '0' ≤ c && c ≤ '9'

/-- A character of a group's name that stands without braces. -/
def inBareName (c : Char) : Bool :=
  isGroupDigit c || ('a' ≤ c && c ≤ 'z') || ('A' ≤ c && c ≤ 'Z') || c = '_'

def numberOf (digits : List Char) : Nat := digits.foldl (fun n c => 10 * n + (c.toNat - 48)) 0

def Captures.text (found : Captures) (name : List Char) : List Char :=
  if !name.isEmpty && name.all isGroupDigit then found.group (numberOf name)
  else found.named (String.ofList name)

/-- Fills a template from what was found; `fuel` bounds the number of steps. -/
def Captures.expandFrom (found : Captures) : Nat → List Char → List Char
  | 0, _ => []
  | _, [] => []
  | fuel + 1, '$' :: '$' :: rest => '$' :: found.expandFrom fuel rest
  | fuel + 1, '$' :: '\x7b' :: rest =>
    match rest.dropWhile (· ≠ '\x7d') with
    | _ :: after => found.text (rest.takeWhile (· ≠ '\x7d')) ++ found.expandFrom fuel after
    | [] => '$' :: found.expandFrom fuel ('\x7b' :: rest)
  | fuel + 1, '$' :: rest =>
    match rest.takeWhile inBareName with
    | [] => '$' :: found.expandFrom fuel rest
    | name => found.text name ++ found.expandFrom fuel (rest.dropWhile inBareName)
  | fuel + 1, c :: rest => c :: found.expandFrom fuel rest

def Captures.expand (found : Captures) (template : List Char) : List Char :=
  found.expandFrom template.length template

/-- The template of a replacement; `fuel` bounds the number of steps. -/
def templateFrom : Nat → List Char → List Char
  | 0, _ => []
  | _, [] => []
  | fuel + 1, '$' :: rest =>
    match rest.takeWhile isGroupDigit with
    | [] => '$' :: '$' :: templateFrom fuel rest
    | digits =>
      '$' :: '\x7b' :: (digits ++ '\x7d' :: templateFrom fuel (rest.dropWhile isGroupDigit))
  | fuel + 1, c :: rest => c :: templateFrom fuel rest

def templateOf (replacement : List Char) : List Char :=
  templateFrom replacement.length replacement

end SingleFile.Pattern
