import SingleFile.Json.Basic

/-!
# Writing JSON

`Json.compact` writes a value without white space, `Json.pretty` with one field or item on a line,
indented by two spaces.  Strings escape the quote, the backslash and the control characters below
the space; all else is written as it is.
-/

namespace SingleFile.Json

/-- The hexadecimal digit of a number below 16, in small letters. -/
def hexDigit (n : Nat) : Char :=
  if n < 10 then Char.ofNat (48 + n) else Char.ofNat (87 + n)

def escapeChar (c : Char) : List Char :=
  if c = '"' then ['\\', '"']
  else if c = '\\' then ['\\', '\\']
  else if c = '\n' then ['\\', 'n']
  else if c = '\r' then ['\\', 'r']
  else if c = '\t' then ['\\', 't']
  else if c.toNat = 8 then ['\\', 'b']
  else if c.toNat = 12 then ['\\', 'f']
  else if c.toNat < 32 then ['\\', 'u', '0', '0', hexDigit (c.toNat / 16), hexDigit (c.toNat % 16)]
  else [c]

def quote (cs : List Char) : List Char := '"' :: (cs.flatMap escapeChar ++ ['"'])

def Number.chars : Number → List Char
  | .natural n => Binary64.decimal n
  | .negative n => '-' :: Binary64.decimal n
  | .real x => x.text.toList

mutual

def chars : Json → List Char
  | .null => ['n', 'u', 'l', 'l']
  | .bool true => ['t', 'r', 'u', 'e']
  | .bool false => ['f', 'a', 'l', 's', 'e']
  | .number n => n.chars
  | .string s => quote s.toList
  | .array items => '[' :: (itemChars items ++ [']'])
  | .object fields => '{' :: (fieldChars fields ++ ['}'])

def itemChars : List Json → List Char
  | [] => []
  | [v] => v.chars
  | v :: w :: rest => v.chars ++ ',' :: itemChars (w :: rest)

def fieldChars : List (String × Json) → List Char
  | [] => []
  | [(k, v)] => quote k.toList ++ ':' :: v.chars
  | (k, v) :: f :: rest => quote k.toList ++ ':' :: (v.chars ++ ',' :: fieldChars (f :: rest))

end

def compact (v : Json) : String := String.ofList v.chars

def lineStart (level : Nat) : List Char := '\n' :: List.replicate (2 * level) ' '

mutual

/-- The characters of a value with one field or item on a line. -/
def prettyChars (level : Nat) : Json → List Char
  | .array [] => ['[', ']']
  | .object [] => ['{', '}']
  | .array (v :: items) => '[' :: (prettyItems (level + 1) (v :: items) ++ lineStart level ++ [']'])
  | .object (f :: fields) =>
    '{' :: (prettyFields (level + 1) (f :: fields) ++ lineStart level ++ ['}'])
  | .null => chars .null
  | .bool b => chars (.bool b)
  | .number n => chars (.number n)
  | .string s => chars (.string s)

def prettyItems (level : Nat) : List Json → List Char
  | [] => []
  | [v] => lineStart level ++ prettyChars level v
  | v :: w :: rest => lineStart level ++ prettyChars level v ++ ',' :: prettyItems level (w :: rest)

def prettyFields (level : Nat) : List (String × Json) → List Char
  | [] => []
  | [(k, v)] => lineStart level ++ quote k.toList ++ ':' :: ' ' :: prettyChars level v
  | (k, v) :: f :: rest =>
    lineStart level ++ quote k.toList ++ ':' :: ' ' :: prettyChars level v ++
      ',' :: prettyFields level (f :: rest)

end

/-- The text of a value with one field or item on a line. -/
def pretty (v : Json) : String := String.ofList (prettyChars 0 v)

end SingleFile.Json
