import SingleFile.Css.Rule
import SingleFile.Json.Writer

/-!
# Printing style sheets

Rules are printed with one declaration a line, two spaces for each level and a blank line between
rules.  Comments are dropped, names and strings are written with the escapes they need, and colours
in their shortest form.  This is how lightningcss prints values that it does not shorten otherwise:
shorthands are not merged here, and units, functions of colours and sums stay as they are written.
-/

namespace SingleFile.Css.Printer

open Node Selector

/-! ## Names, strings and numbers -/

def hexEscape (c : Char) : List Char :=
  '\\' :: (Nat.toDigits 16 c.toNat ++ [' '])

def isControl (c : Char) : Bool := c.toNat < 0x20 || c.toNat = 0x7F

def nameChar (c : Char) : List Char :=
  if inName c then [c] else if isControl c then hexEscape c else ['\\', c]

/-- A name; a digit at its start is written by its code. -/
def name (text : String) : List Char :=
  let start (cs : List Char) : List Char :=
    match cs with
    | c :: r => if isDigit c then hexEscape c ++ r.flatMap nameChar else (c :: r).flatMap nameChar
    | [] => []
  match text.toList with
  | '-' :: '-' :: r => '-' :: '-' :: r.flatMap nameChar
  | ['-'] => ['\\', '-']
  | '-' :: r => '-' :: start r
  | cs => start cs

def string (text : String) : List Char :=
  '"' :: (text.toList.flatMap fun c =>
    if c = '"' || c = '\\' then ['\\', c] else if isControl c then hexEscape c else [c]) ++ ['"']

/-- A number without what does not change its value: a sign that says nothing, zeros before the
point and at the end of the fraction. -/
def number (text : String) : List Char :=
  let (sign, cs) := takeSign text.toList
  let sign := if sign = ['-'] then sign else []
  if cs.any fun c => c = 'e' || c = 'E' then sign ++ cs
  else
    let whole := (cs.takeWhile isDigit).dropWhile (· = '0')
    let fraction := ((cs.dropWhile isDigit).drop 1).reverse.dropWhile (· = '0') |>.reverse
    match whole, fraction with
    | [], [] => ['0']
    | whole, [] => sign ++ whole
    | whole, fraction => sign ++ whole ++ '.' :: fraction

/-! ## Colours -/

def shortColours : List (String × String) :=
  [("navy", "000080"), ("green", "008000"), ("teal", "008080"), ("indigo", "4b0082"),
   ("maroon", "800000"), ("purple", "800080"), ("olive", "808000"), ("gray", "808080"),
   ("sienna", "a0522d"), ("brown", "a52a2a"), ("silver", "c0c0c0"), ("peru", "cd853f"),
   ("tan", "d2b48c"), ("orchid", "da70d6"), ("plum", "dda0dd"), ("violet", "ee82ee"),
   ("khaki", "f0e68c"), ("azure", "f0ffff"), ("wheat", "f5deb3"), ("beige", "f5f5dc"),
   ("salmon", "fa8072"), ("linen", "faf0e6"), ("red", "ff0000"), ("tomato", "ff6347"),
   ("coral", "ff7f50"), ("orange", "ffa500"), ("pink", "ffc0cb"), ("gold", "ffd700"),
   ("bisque", "ffe4c4"), ("snow", "fffafa"), ("ivory", "fffff0")]

/-- The colours whose names are longer than their codes. -/
def longColours : List (String × String) :=
  [("blue", "0000ff"), ("black", "000000"), ("white", "ffffff"), ("yellow", "ffff00"),
   ("lime", "00ff00"), ("aqua", "00ffff"), ("cyan", "00ffff"), ("fuchsia", "ff00ff"),
   ("magenta", "ff00ff"), ("grey", "808080")]

def colour (code : String) : List Char :=
  match shortColours.find? (·.2 = code) with
  | some (n, _) => n.toList
  | none =>
    match code.toList with
    | [a, b, c, d, e, f] => if a = b ∧ c = d ∧ e = f then ['#', a, c, e] else '#' :: code.toList
    | cs => '#' :: cs

def namedColour? (n : String) : Option (List Char) :=
  let n := String.ofList (n.toList.map lowerAscii)
  ((shortColours ++ longColours).find? (·.1 = n)).map (colour ·.2)

def codedColour (digits : String) : List Char :=
  let cs := digits.toList.map lowerAscii
  if cs.all fun c => (Json.hexValue c).isSome then
    match cs with
    | [a, b, c] => colour (String.ofList [a, a, b, b, c, c])
    | [_, _, _, _, _, _] => colour (String.ofList cs)
    | cs => '#' :: cs
  else '#' :: digits.toList

def hasColour (property : String) : Bool :=
  let cs := property.toList.map lowerAscii
  occursIn "color".toList cs || ["background", "border", "border-top", "border-right", "border-bottom",
    "border-left", "outline", "fill", "stroke", "text-decoration", "caret", "column-rule",
    "box-shadow", "text-shadow"].contains (String.ofList cs)

/-! ## Values -/

def closingSign : Bracket → Char
  | .round => ')'
  | .square => ']'
  | .curly => '\x7d'

def openingSign : Bracket → Char
  | .round => '('
  | .square => '['
  | .curly => '\x7b'

/-- A token; `coloured` says whether a name may be that of a colour. -/
def token (coloured : Bool) : Token → List Char
  | .ident n => if coloured then (namedColour? n).getD (name n) else name n
  | .function n => name n ++ ['(']
  | .atKeyword n => '@' :: name n
  | .hash n _ => if coloured then codedColour n else '#' :: name n
  | .string s => string s
  | .url s => "url(".toList ++ string s ++ [')']
  | .delim c => [c]
  | .number t => number t
  | .percentage t => number t ++ ['%']
  | .dimension t u =>
    let n := number t
    if coloured && n = ['0'] && Query.lengthUnits.contains u then n else n ++ name u
  | .space | .comment => [' ']
  | .colon => [':']
  | .semicolon => [';']
  | .comma => [',', ' ']
  | .comparison c => [c, '=']
  | .commentOpen => "<!--".toList
  | .commentClose => "-->".toList
  | .opening b => [openingSign b]
  | .closing b => [closingSign b]
  | .badString | .badUrl => []

mutual

def node (coloured : Bool) : Node → List Char
  | .token t => token coloured t
  | .function n args => name n ++ '(' :: nodes coloured true args ++ [')']
  | .block b content => openingSign b :: nodes coloured true content ++ [closingSign b]

/-- Some values, without white space at the start and the end and around commas, and with one space
elsewhere; `fresh` says that white space is dropped here. -/
def nodes (coloured fresh : Bool) : List Node → List Char
  | [] => []
  | n :: ns =>
    if n.isGap then
      let next := match skipGaps ns with
        | [] => true
        | m :: _ => m.isToken .comma
      if fresh || next then nodes coloured true ns else ' ' :: nodes coloured true ns
    else node coloured n ++ nodes coloured (n.isToken .comma) ns

end

/-- A condition: like a value, with a space after the colons in parentheses. -/
def condition (ns : List Node) : List Char :=
  (ns.map fun n =>
    match n with
    | .block .round content =>
      let (before, after) := (content.takeWhile (!isToken .colon ·), content.dropWhile (!isToken .colon ·))
      match after with
      | colon :: value => Node.block .round (before ++ colon :: .token .space :: value)
      | [] => n
    | n => n) |> nodes false true

/-! ## Selectors -/

/-- The sign of a combinator with the space around it. -/
def combinator : Combinator → List Char
  | .descendant => [' ']
  | .child => " > ".toList
  | .next => " + ".toList
  | .later => " ~ ".toList

/-- The name of a pseudo-class that matches against selectors. -/
def matchingName : Matching → String
  | .negation => "not"
  | .anyOf => "is"
  | .anywhere => "where"
  | .relative => "has"

/-- A test of an attribute; its value is written as a string. -/
def attributeTest (content : List Node) : List Char :=
  let inner := content.filter (!isGap ·)
  let rec go : List Node → List Node
    | [] => []
    | n :: .token (.ident v) :: r =>
      match n with
      | .token (.delim '=') | .token (.comparison _) => n :: .token (.string v) :: go r
      | n => n :: go (.token (.ident v) :: r)
    | n :: r => n :: go r
  '[' :: nodes false true (go inner) ++ [']']

mutual

def part : Part → List Char
  | .combinator c => combinator c
  | .type n => n.toList
  | .nesting => ['&']
  | .id n => '#' :: name n
  | .className n => '.' :: name n
  | .attribute content => attributeTest content
  | .pseudoClass n => ':' :: name n
  | .pseudoElement n =>
    if isOneOf oldElements n then ':' :: name n else ':' :: ':' :: name n
  | .matching kind selectors =>
    ':' :: (matchingName kind).toList ++ '(' :: commaSelectors selectors ++ [')']
  | .classFunction n args _ => ':' :: name n ++ '(' :: nodes false true args ++ [')']
  | .elementFunction n args _ => ':' :: ':' :: name n ++ '(' :: nodes false true args ++ [')']

/-- A selector; a type that says nothing is dropped in front of other parts. -/
def selector : List Part → List Char
  | [] => []
  | .type "*" :: .className n :: r => '.' :: name n ++ selector r
  | p :: r => part p ++ selector r

def commaSelectors : List (List Part) → List Char
  | [] => []
  | [s] => selector s
  | s :: more => selector s ++ ',' :: ' ' :: commaSelectors more

end

/-! ## Rules -/

def newline (level : Nat) : List Char := '\n' :: List.replicate (2 * level) ' '

def declaration (d : Declaration) : List Char :=
  let custom := isDashed d.name
  let label := if custom then d.name.toList else d.name.toList.map lowerAscii
  label ++ ':' :: ' ' :: nodes (!custom && hasColour d.name) true d.value ++
    (if d.important then " !important".toList else [])

/-- Declarations on a level, important ones last. -/
def declarations (level : Nat) (ds : List Declaration) : List Char :=
  (ds.filter (!·.important) ++ ds.filter (·.important)).flatMap fun d =>
    newline level ++ declaration d ++ [';']

/-- Whether a rule is one of those that stand on lines of their own without a blank one. -/
def isStatement : Rule → Bool
  | .other n _ none => isOneOf ["import", "namespace", "layer"] n
  | _ => false

/-- Whether a rule is printed: a mark of the encoding is not. -/
def isPrinted : Rule → Bool
  | .other n _ _ => !isOneOf ["charset"] n
  | _ => true

/-- The items of a block without rules: declarations, and words with blocks of their own. -/
def rawItems : Nat → Nat → List Node → List (List Char)
  | 0, _, _ => []
  | fuel + 1, level, ns =>
    match ns.dropWhile fun n => n.isGap || Rule.isSemicolon n with
    | [] => []
    | r =>
      match Rule.splitAtFirst Rule.endsWords r with
      | (words, .block .curly content :: rest) =>
        let inner := (rawItems fuel (level + 1) content).flatMap (newline (level + 1) ++ ·)
        (nodes false true words ++ " \x7b".toList ++ inner ++ newline level ++ ['\x7d']) ::
          rawItems fuel level rest
      | (words, rest) =>
        let text := match words with
          | .token (.ident n) :: value =>
            match Rule.declaration? n value with
            | some d => declaration d
            | none => nodes false true words
          | words => nodes false true words
        (text ++ [';']) :: rawItems fuel level rest

def head (n : String) (words : List Node) : List Char :=
  let text := condition words
  '@' :: name n ++ (if text.isEmpty then [] else ' ' :: text)

mutual

def rule (level : Nat) : Rule → List Char
  | .style selectors ds inner =>
    let gap := if inner.isEmpty then []
      else if ds.isEmpty then newline (level + 1) else '\n' :: newline (level + 1)
    commaSelectors selectors ++ " \x7b".toList ++ declarations (level + 1) ds ++ gap ++
      rules (level + 1) inner ++ newline level ++ ['\x7d']
  | .group n words ds inner =>
    let own := if ds.isEmpty then []
      else "& \x7b".toList ++ declarations (level + 2) ds ++ newline (level + 1) ++ ['\x7d'] ++
        (if inner.isEmpty then [] else '\n' :: newline (level + 1))
    head n words ++ " \x7b".toList ++ newline (level + 1) ++ own ++ rules (level + 1) inner ++
      newline level ++ ['\x7d']
  | .other n words none => head n words ++ [';']
  | .other n words (some content) =>
    let items := rawItems (content.length + depthAll content + 1) (level + 1) content
    head n words ++ " \x7b".toList ++ items.flatMap (newline (level + 1) ++ ·) ++
      newline level ++ ['\x7d']

def rules (level : Nat) : List Rule → List Char
  | [] => []
  | r :: rs =>
    if !isPrinted r then rules level rs
    else
      let gap := match rs.find? isPrinted with
        | none => []
        | some next =>
          if isStatement r && isStatement next then newline level else '\n' :: newline level
      rule level r ++ gap ++ rules level rs

end

def styleSheet (sheet : StyleSheet) : String := String.ofList (rules 0 sheet.rules ++ ['\n'])

end SingleFile.Css.Printer
