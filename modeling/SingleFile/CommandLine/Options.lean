/-!
# Options on a command line

A command line has levels: options before the name of a command belong to the program, those after it
to the command.  An option is a flag or takes a value; it is given once at a level unless it may be
repeated.
-/

namespace SingleFile.CommandLine

inductive Takes where
  | nothing
  | value
  | anyValues
deriving DecidableEq, Repr

/-- An option: its long name, its letter, what it takes, and which values it accepts. -/
structure OptionRule where
  name : String
  letter : Option Char := none
  takes : Takes := .nothing
  accepts : String → Bool := fun _ => true

/-- A level of the command line: its options, and whether commands may follow. -/
structure Level where
  rules : List OptionRule
  hasCommands : Bool

/-- Why reading stops before the end: a fault, or a question that is answered at once. -/
inductive Stop where
  | usage
  | version
  | help
deriving DecidableEq, Repr

/-- What has been read at a level: the options with their values, other words, and what is left to
a command. -/
structure Given where
  options : List (String × String) := []
  words : List String := []
  rest : List String := []
deriving Repr

def Given.has (g : Given) (name : String) : Bool := g.options.any (·.1 = name)

def Given.value? (g : Given) (name : String) : Option String := g.options.lookup name

def Given.values (g : Given) (name : String) : List String :=
  (g.options.filter (·.1 = name)).map (·.2)

def Given.put (g : Given) (rule : OptionRule) (value : String) : Except Stop Given :=
  if rule.takes ≠ .anyValues && g.has rule.name then .error .usage
  else if !rule.accepts value then .error .usage
  else .ok { g with options := g.options ++ [(rule.name, value)] }

/-- Whether a word is an option and not a value; a single dash is a value. -/
def looksLikeOption (word : String) : Bool :=
  word.toList.head? = some '-' && word ≠ "-"

def takeValue (g : Given) (rule : OptionRule) : List String → Except Stop (Given × List String)
  | [] => .error .usage
  | word :: rest =>
    if rule.takes = .value && looksLikeOption word then .error .usage
    else (g.put rule word).map (·, rest)

def readLong (level : Level) (g : Given) (text : List Char) (rest : List String) :
    Except Stop (Given × List String) :=
  let name := String.ofList (text.takeWhile (· ≠ '='))
  let attached := match text.dropWhile (· ≠ '=') with
    | _ :: value => some (String.ofList value)
    | [] => none
  if attached.isNone && name = "help" then .error .help
  else if attached.isNone && name = "version" && level.hasCommands then .error .version
  else match level.rules.find? (·.name = name) with
    | none => .error .usage
    | some rule =>
      match rule.takes, attached with
      | .nothing, some _ => .error .usage
      | .nothing, none => (g.put rule "").map (·, rest)
      | _, some value => (g.put rule value).map (·, rest)
      | _, none => takeValue g rule rest

def readLetters (level : Level) (rest : List String) :
    Given → List Char → Except Stop (Given × List String)
  | g, [] => .ok (g, rest)
  | g, c :: more =>
    if c = 'h' then .error .help
    else if c = 'V' && level.hasCommands then .error .version
    else match level.rules.find? (·.letter = some c) with
      | none => .error .usage
      | some rule =>
        match rule.takes, more with
        | .nothing, _ =>
          match g.put rule "" with
          | .ok g => readLetters level rest g more
          | .error stop => .error stop
        | _, [] => takeValue g rule rest
        | _, '=' :: value => (g.put rule (String.ofList value)).map (·, rest)
        | _, value => (g.put rule (String.ofList value)).map (·, rest)

/-- Reads a level to its end, or up to the name of a command; `fuel` bounds the number of words. -/
def readLevel (level : Level) : Nat → Given → List String → Except Stop Given
  | 0, g, _ => .ok g
  | _, g, [] => .ok g
  | fuel + 1, g, word :: rest =>
    match word.toList with
    | ['-', '-'] =>
      if level.hasCommands then .error .usage else .ok { g with words := g.words ++ rest }
    | '-' :: '-' :: text => do
      let (g, rest) ← readLong level g text rest
      readLevel level fuel g rest
    | '-' :: c :: letters => do
      let (g, rest) ← readLetters level rest g (c :: letters)
      readLevel level fuel g rest
    | _ =>
      if level.hasCommands then .ok { g with rest := word :: rest }
      else readLevel level fuel { g with words := g.words ++ [word] } rest

def Level.read (level : Level) (args : List String) : Except Stop Given :=
  readLevel level (args.length + 1) {} args

end SingleFile.CommandLine
