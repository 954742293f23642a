import SingleFile.Number.Power
import SingleFile.Pattern.Syntax

/-!
# Reading patterns

The written form of patterns: alternatives, groups with or without a name, sets between brackets,
escapes, repeats and flags.  There is no looking around and no reference back to a group; a text that
asks for them is no pattern.

This is the syntax of the `regex` library in its Unicode mode.  Of the properties that `\p` names only
those of `propertySet?` are known, where a script is a range of code points, alphabetic characters
are letters, and numbers are decimal digits; a text that names another property is no pattern here.
Patterns have no bound on their size but that groups nest at most 250 deep.
-/

namespace SingleFile.Pattern

/-- What flags say about the text that follows them. -/
structure Flags where
  foldCase : Bool := false
  manyLines : Bool := false
  dotTakesAll : Bool := false
  returnEndsLine : Bool := false
  lazyFirst : Bool := false
  plainWords : Bool := false
  spaced : Bool := false
deriving DecidableEq, Repr

/-- What is left of a written pattern, and what was met so far. -/
structure Writing where
  rest : List Char
  groups : Nat := 0
  names : List (String × Nat) := []
  flags : Flags := {}

abbrev PartReader := StateT Writing Option

namespace PartReader

def peek? : PartReader (Option Char) := return (← get).rest.head?

def skip (n : Nat) : PartReader Unit := modify fun w => { w with rest := w.rest.drop n }

def ahead (cs : List Char) : PartReader Bool := return cs.isPrefixOf (← get).rest

def take? (cs : List Char) : PartReader Bool := do
  if ← ahead cs then skip cs.length; return true else return false

def next : PartReader Char := do
  match (← get).rest with
  | c :: rest => modify fun w => { w with rest }; return c
  | [] => failure

def expect (cs : List Char) : PartReader Unit := do
  unless ← take? cs do failure

/-- The characters up to one that has to come, which is taken as well. -/
def upTo (stop : Char) : PartReader (List Char) := do
  let w ← get
  let (taken, rest) := (w.rest.takeWhile (· ≠ stop), w.rest.dropWhile (· ≠ stop))
  set { w with rest := rest.drop 1 }
  if rest.isEmpty then failure else return taken

/-- What is left after spaces and comments; `fuel` bounds their number. -/
def withoutComments : Nat → List Char → List Char
  | 0, cs => cs
  | fuel + 1, cs =>
    match cs.dropWhile isBlank with
    | '#' :: more => withoutComments fuel (more.dropWhile (· ≠ '\n'))
    | other => other

/-- Skips spaces and comments where the flags say that they do not count. -/
def skipSpace : PartReader Unit :=
  modify fun w =>
    if w.flags.spaced then { w with rest := withoutComments (w.rest.length + 1) w.rest } else w

/-- Repeats a reader until it says that it is done. -/
def fold (step : α → PartReader (α × Bool)) : Nat → α → PartReader α
  | 0, _ => failure
  | fuel + 1, acc => do
    let (acc, goOn) ← step acc
    if goOn then fold step fuel acc else return acc

/-- Repeats a reader at most once for each character that is left. -/
def repeatOver (acc : α) (step : α → PartReader (α × Bool)) : PartReader α := do
  fold step ((← get).rest.length + 2) acc

end PartReader

open PartReader

/-! ## Numbers and characters -/

def hexValue? (c : Char) : Option Nat :=
  if '0' ≤ c ∧ c ≤ '9' then some (c.toNat - 48)
  else if 'a' ≤ c ∧ c ≤ 'f' then some (c.toNat - 87)
  else if 'A' ≤ c ∧ c ≤ 'F' then some (c.toNat - 55)
  else none

def charOfHex? (cs : List Char) : Option Char := do
  if cs.isEmpty then none else
    let n ← cs.foldlM (fun n c => (hexValue? c).map (16 * n + ·)) 0
    if h : n.isValidChar then some (Char.ofNatAux n h) else none

/-- A character by its number: some digits, or any number of them in braces. -/
def hexChar (digits : Nat) : PartReader Char := do
  if ← take? ['\x7b'] then
    charOfHex? (← upTo '\x7d')
  else
    let w ← get
    if w.rest.length < digits then failure
    skip digits
    charOfHex? (w.rest.take digits)

def number : PartReader (Option Nat) := do
  let w ← get
  let cs := w.rest.dropWhile isBlank
  let digits := cs.takeWhile fun c => '0' ≤ c && c ≤ '9'
  set { w with rest := (cs.drop digits.length).dropWhile isBlank }
  if digits.isEmpty then return none
  let n := digits.foldl (fun n c => 10 * n + (c.toNat - 48)) 0
  if n < 2 ^ 32 then return some n else failure

/-! ## Sets of characters -/

def propertySet? (name : List Char) : Option CharSet :=
  match String.ofList ((name.filter fun c => c ≠ '_' && c ≠ '-' && c ≠ ' ').map Unicode.lower) with
  | "l" | "letter" => some (.property .letter)
  | "alphabetic" | "alpha" => some (.property .letter)
  | "lu" | "uppercaseletter" | "uppercase" | "upper" => some (.property .upper)
  | "ll" | "lowercaseletter" | "lowercase" | "lower" => some (.property .lower)
  | "m" | "mark" => some (.property .mark)
  | "nd" | "decimalnumber" | "digit" => some (.property .digit)
  | "n" | "number" => some (.property .digit)
  | "pc" | "connectorpunctuation" => some (.property .connector)
  | "whitespace" | "wspace" | "space" => some (.property .blank)
  | "any" => some (.range 0 0x10FFFF)
  | "ascii" => some (.range 0 0x7F)
  | "greek" => some (.range 0x370 0x3FF)
  | "cyrillic" => some (.range 0x400 0x52F)
  | "hiragana" => some (.range 0x3041 0x309F)
  | "katakana" => some (.range 0x30A1 0x30FF)
  | "han" => some (.union (.range 0x4E00 0x9FFF) (.range 0x3400 0x4DBF))
  | "latin" =>
    some (.both (.property .letter) (.union (.range 0x41 0x2B8) (.range 0x1E00 0x1EFF)))
  | _ => none

/-- The set with a name between `[:` and `:]`. -/
def asciiSet? (name : List Char) : Option CharSet :=
  let digit := CharSet.range 0x30 0x39
  let upper := CharSet.range 0x41 0x5A
  let lower := CharSet.range 0x61 0x7A
  let letter := CharSet.union upper lower
  match String.ofList name with
  | "alnum" => some (.union digit letter)
  | "alpha" => some letter
  | "ascii" => some (.range 0 0x7F)
  | "blank" => some (.ofChars ['\t', ' '])
  | "cntrl" => some (.union (.range 0 0x1F) (.range 0x7F 0x7F))
  | "digit" => some digit
  | "graph" => some (.range 0x21 0x7E)
  | "lower" => some lower
  | "print" => some (.range 0x20 0x7E)
  | "punct" =>
    some (.union (.union (.range 0x21 0x2F) (.range 0x3A 0x40))
      (.union (.range 0x5B 0x60) (.range 0x7B 0x7E)))
  | "space" => some (.ofChars ['\t', '\n', '\x0b', '\x0c', '\r', ' '])
  | "upper" => some upper
  | "word" => some (.union (.union digit letter) (.single '_'))
  | "xdigit" => some (.union digit (.union (.range 0x41 0x46) (.range 0x61 0x66)))
  | _ => none

def negatedIf (negated : Bool) (s : CharSet) : CharSet := if negated then .complement s else s

/-- The set with all forms of its letters where case does not count. -/
def withCase (flags : Flags) (s : CharSet) : CharSet := if flags.foldCase then .folded s else s

/-- The set of words, digits or white space that a letter stands for. -/
def shortSet? (flags : Flags) (letter : Char) : Option CharSet :=
  let plain (name : String) := (asciiSet? name.toList).getD .empty
  match Unicode.lower letter with
  | 'd' => some (if flags.plainWords then plain "digit" else .property .digit)
  | 's' => some (if flags.plainWords then plain "space" else .property .blank)
  | 'w' => some (if flags.plainWords then plain "word" else .property .word)
  | _ => none

inductive Escape where
  | char (c : Char)
  | set (s : CharSet)
  | place (p : Place)

/-- A word edge, which may say of which kind it is. -/
def wordEdge : PartReader Place := do
  let w ← get
  if ← take? ['\x7b'] then
    match String.ofList (w.rest.drop 1 |>.takeWhile fun c => Unicode.isLetter c || c = '-') with
    | "start" => expect "start\x7d".toList; return .wordStart
    | "end" => expect "end\x7d".toList; return .wordStop
    | "start-half" => expect "start-half\x7d".toList; return .wordStartHalf
    | "end-half" => expect "end-half\x7d".toList; return .wordStopHalf
    | _ => set w; return .wordEdge
  else return .wordEdge

/-- The set that a property escape names, after its letter. -/
def propertyEscape (negated : Bool) : PartReader CharSet := do
  let flags := (← get).flags
  let c ← next
  let name ← if c = '\x7b' then upTo '\x7d' else pure [c]
  let (negated, name) := match name with
    | '^' :: more => (!negated, more)
    | other => (negated, other)
  let value := (name.dropWhile fun c => c ≠ '=' && c ≠ ':').drop 1
  let set ← propertySet? (if value.isEmpty then name else value)
  return negatedIf negated (withCase flags set)

def escape : PartReader Escape := do
  let flags := (← get).flags
  let c ← next
  match c with
  | 'x' => return .char (← hexChar 2)
  | 'u' => return .char (← hexChar 4)
  | 'U' => return .char (← hexChar 8)
  | 'p' => return .set (← propertyEscape false)
  | 'P' => return .set (← propertyEscape true)
  | 'd' | 's' | 'w' => return .set (← shortSet? flags c)
  | 'D' | 'S' | 'W' => return .set (.complement (← shortSet? flags c))
  | 'a' => return .char '\x07'
  | 'f' => return .char '\x0c'
  | 't' => return .char '\t'
  | 'n' => return .char '\n'
  | 'r' => return .char '\r'
  | 'v' => return .char '\x0b'
  | 'A' => return .place .textStart
  | 'z' => return .place .textStop
  | 'b' => return .place (← wordEdge)
  | 'B' => return .place .noWordEdge
  | '<' => return .place .wordStart
  | '>' => return .place .wordStop
  | _ =>
    if c.toNat < 0x80 && !Unicode.isLetter c && !Unicode.isDigit c then return .char c
    else failure

/-- One member of a set: a character, or a set that an escape stands for. -/
def setMember : PartReader Escape := do
  let c ← next
  if c = '\\' then escape else return .char c

def namedSet? : PartReader (Option CharSet) := do
  let w ← get
  if ← take? ['[', ':'] then
    let negated ← take? ['^']
    let name := (← get).rest.takeWhile (· ≠ ':')
    skip name.length
    if ← take? [':', ']'] then
      if let some s := asciiSet? name then return some (negatedIf negated (withCase w.flags s))
  set w
  return none

/-- A character, a range of characters or an escape inside a set. -/
def setRange : PartReader CharSet := do
  let flags := (← get).flags
  let first ← setMember
  skipSpace
  let w ← get
  match w.rest with
  | [] => failure
  | '-' :: after =>
    let after := if flags.spaced then withoutComments (after.length + 1) after else after
    if after.head? = some ']' ∨ after.head? = some '-' then finish flags first
    else
      set { w with rest := after }
      let last ← setMember
      match first, last with
      | .char a, .char b =>
        if a ≤ b then return withCase flags (.range a.toNat b.toNat) else failure
      | _, _ => failure
  | _ => finish flags first
where
  finish (flags : Flags) : Escape → PartReader CharSet
    | .char c => return withCase flags (.single c)
    | .set s => return s
    | .place _ => failure

/-- How the parts of a set that stand in a row are joined. -/
inductive SetJoin where
  | both
  | without
  | either

def SetJoin.apply : SetJoin → CharSet → CharSet → CharSet
  | .both, a, b => .both a b
  | .without, a, b => .both a (.complement b)
  | .either, a, b => .both (.union a b) (.complement (.both a b))

/-- The sign that joins two sets, where one comes next. -/
def setJoin? : PartReader (Option SetJoin) := do
  if ← take? ['&', '&'] then return some .both
  if ← take? ['-', '-'] then return some .without
  if ← take? ['~', '~'] then return some .either
  return none

/-- A set between brackets, after the opening one; `inner` reads a set inside it. -/
def bracketBody (inner : PartReader CharSet) : PartReader CharSet := do
  let flags := (← get).flags
  skipSpace
  let negated ← take? ['^']
  skipSpace
  let dashes := (← get).rest.takeWhile (· = '-')
  skip dashes.length
  skipSpace
  let mut start := if dashes.isEmpty then CharSet.empty else withCase flags (.single '-')
  if dashes.isEmpty then
    if ← take? [']'] then start := withCase flags (.single ']')
  let (joined, last) ← repeatOver ((none : Option (CharSet × SetJoin)), start) fun (left, items) => do
    skipSpace
    if ← take? [']'] then return ((left, items), false)
    if let some s ← namedSet? then return ((left, .union items s), true)
    if ← take? ['['] then return ((left, .union items (← inner)), true)
    match ← setJoin? with
    | some join => return ((some (close left items, join), .empty), true)
    | none => return ((left, .union items (← setRange)), true)
  return negatedIf negated (close joined last)
where
  close (left : Option (CharSet × SetJoin)) (items : CharSet) : CharSet :=
    match left with
    | some (s, join) => join.apply s items
    | none => items

def bracket : Nat → PartReader CharSet
  | 0 => failure
  | fuel + 1 => bracketBody (bracket fuel)

/-! ## Repeats -/

/-- How often something may occur: at least, and at most where there is a bound. -/
structure Repeat where
  least : Nat
  most : Option Nat
  greedy : Bool

/-- The numbers of a repeat in braces, after the opening one. -/
def bounds : PartReader (Nat × Option Nat) := do
  let least ← number
  if ← take? [','] then
    let most ← number
    expect ['\x7d']
    match least, most with
    | some least, some most => if least ≤ most then return (least, some most) else failure
    | some least, none => return (least, none)
    | none, _ => failure
  else
    expect ['\x7d']
    match least with
    | some n => return (n, some n)
    | none => failure

def repeat? : PartReader (Option Repeat) := do
  let flags := (← get).flags
  let range ← do
    if ← take? ['*'] then pure (some (0, none))
    else if ← take? ['+'] then pure (some (1, none))
    else if ← take? ['?'] then pure (some (0, some 1))
    else if ← take? ['\x7b'] then pure (some (← bounds))
    else pure none
  match range with
  | some (least, most) =>
    let isLazy ← take? ['?']
    return some ⟨least, most, isLazy = flags.lazyFirst⟩
  | none => return none

def Repeat.apply (r : Repeat) (body : Node) : Node :=
  match r.most with
  | none => body.atLeast r.greedy r.least
  | some most =>
    if r.least = 0 then body.upTo r.greedy most
    else if most = r.least then body.times r.least
    else .sequence (body.times r.least) (body.upTo r.greedy (most - r.least))

/-! ## Groups -/

def startsName (c : Char) : Bool := c = '_' || Unicode.isLetter c

/-- A character that the name of a group may go on with. -/
def inName (c : Char) : Bool :=
  c = '_' || c = '.' || c = '[' || c = ']' || Unicode.isLetter c || Unicode.isDigit c

/-- The flags with one of them set or taken back; `u` cannot be taken back for a text. -/
def Flags.put (flags : Flags) (on : Bool) : Char → Option Flags
  | 'i' => some { flags with foldCase := on }
  | 'm' => some { flags with manyLines := on }
  | 's' => some { flags with dotTakesAll := on }
  | 'R' => some { flags with returnEndsLine := on }
  | 'U' => some { flags with lazyFirst := on }
  | 'u' => some { flags with plainWords := !on }
  | 'x' => some { flags with spaced := on }
  | _ => none

/-- Flags up to the end of a group's head: whether a pattern follows, and the flags. -/
def flagList : PartReader (Bool × Flags) := do
  let start := (← get).flags
  let (flags, _, stop, seen, _) ←
    repeatOver (start, true, ':', ([] : List Char), false) fun (flags, on, _, seen, bare) => do
      let c ← next
      if c = ':' ∨ c = ')' then
        if bare then failure
        return ((flags, on, c, seen, false), false)
      if c = '-' then
        if on then return ((flags, false, c, seen, true), true) else failure
      if seen.contains c then failure
      return ((← flags.put on c, on, c, c :: seen, false), true)
  if stop = ')' && seen.isEmpty then failure
  return (stop = ':', flags)

/-- A name up to its closing bracket, which no other group may have. -/
def groupName : PartReader String := do
  let name ← upTo '>'
  match name with
  | c :: more =>
    if startsName c && more.all inName then
      let name := String.ofList name
      if (← get).names.any (·.1 = name) then failure else return name
    else failure
  | [] => failure

/-- A pattern in a group, up to the closing parenthesis; flags end with the group. -/
def groupBody (inner : PartReader Node) (flags : Flags) : PartReader Node := do
  let outside := (← get).flags
  modify fun w => { w with flags }
  let body ← inner
  expect [')']
  modify fun w => { w with flags := outside }
  return body

def countedGroup (inner : PartReader Node) (name : Option String) : PartReader Node := do
  let w ← get
  let index := w.groups + 1
  let names := match name with
    | some name => w.names ++ [(name, index)]
    | none => w.names
  set { w with groups := index, names }
  return .group index (← groupBody inner w.flags)

/-! ## Patterns -/

/-- An item of a pattern; what only sets flags cannot be repeated. -/
structure Item where
  node : Node
  canRepeat : Bool := true

/-- A group or a list of flags, after the opening parenthesis. -/
def group (inner : PartReader Node) : PartReader Item := do
  skipSpace
  if ← take? ['?', 'P', '<'] then return ⟨← countedGroup inner (some (← groupName)), true⟩
  if ← take? ['?'] then
    if (← ahead ['<', '=']) || (← ahead ['<', '!']) then failure
    if ← take? ['<'] then return ⟨← countedGroup inner (some (← groupName)), true⟩
    let (hasBody, flags) ← flagList
    if hasBody then return ⟨← groupBody inner flags, true⟩
    modify fun w => { w with flags }
    return ⟨.nothing, false⟩
  return ⟨← countedGroup inner none, true⟩

def dotSet (flags : Flags) : CharSet :=
  if flags.dotTakesAll then .range 0 0x10FFFF
  else .complement (.ofChars (if flags.returnEndsLine then ['\n', '\r'] else ['\n']))

/-- The place that a sign for the start or the end stands for. -/
def anchor (flags : Flags) (start : Bool) : Place :=
  if !flags.manyLines then (if start then .textStart else .textStop)
  else if flags.returnEndsLine then (if start then .lineStartReturn else .lineStopReturn)
  else if start then .lineStart else .lineStop

def item (inner : PartReader Node) : PartReader Item := do
  let flags := (← get).flags
  let c ← next
  match c with
  | '(' => group inner
  | '[' => return ⟨.one (← bracket ((← get).rest.length + 1)), true⟩
  | '.' => return ⟨.one (dotSet flags), true⟩
  | '^' => return ⟨.place (anchor flags true), true⟩
  | '$' => return ⟨.place (anchor flags false), true⟩
  | '*' | '+' | '?' | '\x7b' => failure
  | '\\' =>
    match ← escape with
    | .char c => return ⟨.one (withCase flags (.single c)), true⟩
    | .set s => return ⟨.one s, true⟩
    | .place p => return ⟨.place p, true⟩
  | _ => return ⟨.one (withCase flags (.single c)), true⟩

def repeated (inner : PartReader Node) : PartReader Node := do
  let first ← item inner
  let last ← repeatOver first fun item => do
    skipSpace
    match ← repeat? with
    | some r => if item.canRepeat then return (⟨r.apply item.node, true⟩, true) else failure
    | none => return (item, false)
  return last.node

/-- The items up to the next alternative or the end of the group. -/
def branch (inner : PartReader Node) : PartReader Node := do
  let nodes ← repeatOver ([] : List Node) fun nodes => do
    skipSpace
    match ← peek? with
    | none | some '|' | some ')' => return (nodes, false)
    | some _ => return ((← repeated inner) :: nodes, true)
  match nodes with
  | [] => return .nothing
  | last :: before => return before.foldl (fun acc node => .sequence node acc) last

def alternatives (inner : PartReader Node) : PartReader Node := do
  let first ← branch inner
  let nodes ← repeatOver [first] fun nodes => do
    if ← take? ['|'] then return ((← branch inner) :: nodes, true) else return (nodes, false)
  match nodes with
  | [] => return .nothing
  | last :: before => return before.foldl (fun acc node => .either node acc) last

/-- A pattern with groups nested at most to a depth. -/
def nested : Nat → PartReader Node
  | 0 => failure
  | depth + 1 => alternatives (nested depth)

/-- Reads a pattern; nothing where the text is none. -/
def parse? (text : String) : Option Pattern := do
  let (node, w) ← (nested 250).run { rest := text.toList }
  if w.rest.isEmpty then some ⟨text, node, w.names⟩ else none

end SingleFile.Pattern
