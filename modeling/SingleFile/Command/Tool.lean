import SingleFile.Command.Token
import SingleFile.Files.Store
import SingleFile.Pattern.Reader
import SingleFile.Pattern.Replacement

/-!
# Commands

The commands that a command line can name: they copy, write and edit text.  A command takes what it
needs of its input and leaves the rest to the commands after it.
-/

namespace SingleFile.Command

/-- What a command did: the input it left, what it wrote, what it said, and its status. -/
structure Result where
  input : List Char := []
  output : List Char := []
  errors : List Char := []
  status : Nat := 0

/-! ## Copying and counting -/

/-- What is said of a file that cannot be read. -/
def unreadable (command name : List Char) (t : Trouble) : List Char :=
  let reason := match t with
    | .isADirectory => "Is a directory"
    | .notADirectory => "Not a directory"
    | .permissionDenied => "Permission denied"
    | _ => "No such file or directory"
  command ++ ": ".toList ++ name ++ ": ".toList ++ reason.toList ++ ['\n']

def cat (files : Files) (names : List (List Char)) (input : List Char) : Result :=
  let step := fun (r : Result) (name : List Char) =>
    if name = ['-'] then { r with output := r.output ++ r.input, input := [] }
    else match files.read (String.ofList name) with
      | .ok text => { r with output := r.output ++ text.toList }
      | .error t => { r with errors := r.errors ++ unreadable "cat".toList name t, status := 1 }
  (if names.isEmpty then [['-']] else names).foldl step { input }

def countWords (cs : List Char) : Nat :=
  ((splitAt ' ' (cs.map fun c => if isBlank c then ' ' else c)).filter (· ≠ [])).length

def count (flags : List (List Char)) (input : List Char) : Result :=
  let n := match flags with
    | [['-', 'c']] => byteLength input
    | [['-', 'm']] => input.length
    | [['-', 'l']] => (input.filter (· = '\n')).length
    | _ => countWords input
  { output := (toString n).toList ++ ['\n'] }

/-! ## Writing -/

def escaped? : Char → Option Char
  | 'n' => some '\n'
  | 't' => some '\t'
  | 'r' => some '\r'
  | 'a' => some '\x07'
  | 'b' => some '\x08'
  | 'f' => some '\x0c'
  | 'v' => some '\x0b'
  | '\\' => some '\\'
  | _ => none

def unescape : List Char → List Char
  | [] => []
  | ['\\'] => ['\\']
  | '\\' :: c :: rest =>
    match escaped? c with
    | some d => d :: unescape rest
    | none => '\\' :: c :: unescape rest
  | c :: rest => c :: unescape rest

def echo (words : List (List Char)) (input : List Char) : Result :=
  match words with
  | ['-', 'n'] :: rest => { input, output := unescape (List.intercalate [' '] rest) }
  | words => { input, output := unescape (List.intercalate [' '] words) ++ ['\n'] }

/-- Fills a format once; gives the words that are left. -/
def fillFormat : List Char → List (List Char) → List Char × List (List Char)
  | [], words => ([], words)
  | '%' :: '%' :: rest, words =>
    let (out, left) := fillFormat rest words
    ('%' :: out, left)
  | '%' :: c :: rest, words =>
    if c = 's' ∨ c = 'b' ∨ c = 'd' ∨ c = 'c' then
      let word := words.headD (if c = 'd' then ['0'] else [])
      let shown := if c = 'b' then unescape word else if c = 'c' then word.take 1 else word
      let (out, left) := fillFormat rest words.tail
      (shown ++ out, left)
    else
      let (out, left) := fillFormat rest words
      ('%' :: c :: out, left)
  | '\\' :: c :: rest, words =>
    let (out, left) := fillFormat rest words
    match escaped? c with
    | some d => (d :: out, left)
    | none => ((if c = '"' then ['"'] else ['\\', c]) ++ out, left)
  | c :: rest, words =>
    let (out, left) := fillFormat rest words
    (c :: out, left)

/-- Fills a format again as long as words are left; `fuel` bounds the number of times. -/
def fillAgain (format : List Char) : Nat → List (List Char) → List Char
  | 0, _ => []
  | fuel + 1, words =>
    let (out, left) := fillFormat format words
    if left.isEmpty ∨ left.length = words.length then out
    else out ++ fillAgain format fuel left

def printf (words : List (List Char)) (input : List Char) : Result :=
  match words with
  | format :: words => { input, output := fillAgain format (words.length + 1) words }
  | [] => { input, errors := "printf: usage: printf format [arg ...]\n".toList, status := 2 }

/-! ## Editing -/

/-- An edit: the pattern that is looked for, what is put in place, and whether everywhere. -/
structure Edit where
  pattern : Pattern
  replacement : List Char
  everywhere : Bool

/-- What stands between brackets in a simple pattern, where a backslash is plain, as the text of a
pattern. -/
def bracketText (cs : List Char) : List Char :=
  cs.flatMap fun c =>
    if c = '\\' ∨ c = '[' ∨ c = '&' ∨ c = '~' then ['\\', c] else [c]

/-- The text of a pattern that means what a simple pattern does.  There a backslash gives most signs
their meaning. -/
def patternText : Nat → Bool → List Char → List Char
  | 0, _, _ => []
  | _, _, [] => []
  | fuel + 1, _, '\\' :: c :: rest =>
    if ['(', ')', '\x7b', '\x7d', '|', '+', '?'].contains c then
      c :: patternText fuel (c = '(' || c = '|') rest
    else '\\' :: c :: patternText fuel false rest
  | fuel + 1, _, '[' :: rest =>
    let (sign, body) := match rest with
      | '^' :: more => (['^'], more)
      | more => ([], more)
    let (first, body) := match body with
      | ']' :: more => (['\\', ']'], more)
      | more => ([], more)
    let inside := body.takeWhile (· ≠ ']')
    '[' :: (sign ++ first ++ bracketText inside ++ [']'] ++
      patternText fuel false ((body.dropWhile (· ≠ ']')).drop 1))
  | fuel + 1, atStart, c :: rest =>
    if c = '*' ∧ atStart then '\\' :: '*' :: patternText fuel false rest
    else if ['(', ')', '\x7b', '\x7d', '|', '+', '?'].contains c then
      '\\' :: c :: patternText fuel false rest
    else if c = '^' ∧ !atStart then '\\' :: '^' :: patternText fuel false rest
    else if c = '$' ∧ !rest.isEmpty then '\\' :: '$' :: patternText fuel false rest
    else c :: patternText fuel (c = '^') rest

/-- What is put in place of a match: `&` is the match, and digits after a backslash are groups. -/
def filled (found : Pattern.Captures) : List Char → List Char
  | [] => []
  | '\\' :: c :: rest =>
    if '0' ≤ c ∧ c ≤ '9' then found.group (c.toNat - 48) ++ filled found rest
    else if c = 'n' then '\n' :: filled found rest
    else c :: filled found rest
  | '&' :: rest => found.group 0 ++ filled found rest
  | c :: rest => c :: filled found rest

/-- Applies an edit from a place in a line; `fuel` bounds the number of places. -/
def Edit.applyFrom (e : Edit) : Nat → Option Char → List Char → List Char
  | 0, _, cs => cs
  | fuel + 1, before, cs =>
    match (e.pattern.node.ways ⟨0, before, cs, []⟩).head? with
    | some r =>
      let found : Pattern.Captures := ⟨(0, cs.take r.offset) :: r.groups, []⟩
      let out := filled found e.replacement
      if !e.everywhere then out ++ r.rest
      else if r.offset = 0 then
        match cs with
        | c :: rest => out ++ c :: e.applyFrom fuel (some c) rest
        | [] => out
      else if r.rest.isEmpty then out
      else out ++ e.applyFrom fuel r.before r.rest
    | none =>
      match cs with
      | c :: rest => c :: e.applyFrom fuel (some c) rest
      | [] => []

def Edit.apply (e : Edit) (line : List Char) : List Char := e.applyFrom (line.length + 1) none line

/-- A part of an edit up to a sign that is not after a backslash, and what follows the sign. -/
def untilSign (sign : Char) : List Char → Option (List Char × List Char)
  | [] => none
  | '\\' :: c :: rest =>
    (untilSign sign rest).map fun r => ((if c = sign then [c] else ['\\', c]) ++ r.1, r.2)
  | c :: rest =>
    if c = sign then some ([], rest) else (untilSign sign rest).map fun r => (c :: r.1, r.2)

/-- Reads edits; nothing where a text is none. -/
def readEdits : Nat → List Char → Option (List Edit)
  | 0, _ => none
  | fuel + 1, cs =>
    match cs.dropWhile fun c => isBlank c || c = ';' with
    | [] => some []
    | 's' :: sign :: rest => do
      let (pattern, rest) ← untilSign sign rest
      let (replacement, rest) ← untilSign sign rest
      let pattern ← Pattern.parse? (String.ofList (patternText (pattern.length + 1) true pattern))
      let flags := rest.takeWhile fun c => c ≠ ';' && c ≠ '\n' && c ≠ ' '
      let more ← readEdits fuel (rest.drop flags.length)
      return ⟨pattern, replacement, flags.contains 'g'⟩ :: more
    | _ => none

def sed (words : List (List Char)) (input : List Char) : Result :=
  let script := match words with
    | ['-', 'e'] :: script :: _ => script
    | script :: _ => script
    | [] => []
  match readEdits (script.length + 1) script with
  | none => { input, errors := "sed: unknown command\n".toList, status := 1 }
  | some edits =>
    let lines := splitAt '\n' input
    let edit (line : List Char) : List Char := edits.foldl (fun line e => e.apply line) line
    let (whole, last) := (lines.dropLast, lines.getLastD [])
    { output := (whole.flatMap fun line => edit line ++ ['\n']) ++
        (if last.isEmpty then [] else edit last) }

/-- The names of the commands that are not part of the command line itself. -/
def toolNames : List String := ["cat", "echo", "false", "printf", "sed", "sh", "true", "wc"]

/-- Runs a command; nothing where there is none of the name. -/
def runTool (files : Files) (name : List Char) (words : List (List Char)) (input : List Char) :
    Option Result :=
  match String.ofList name with
  | "cat" => some (cat files words input)
  | "echo" => some (echo words input)
  | "false" => some { input, status := 1 }
  | "printf" => some (printf words input)
  | "sed" => some (sed words input)
  | "true" | ":" => some { input }
  | "wc" => some (count words input)
  | _ => none

end SingleFile.Command
