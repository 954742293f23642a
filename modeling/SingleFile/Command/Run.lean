import SingleFile.Command.Tool

/-!
# Running commands

Commands of a line run one after the other on the same input, and a pipe hands the output of one to
the next.  `Command.run` finds the command that is asked for, among the tools or as a file of commands,
and runs it to its end.
-/

namespace SingleFile.Command

/-- A command that is run as a program of its own: its words, where it works, and its input. -/
structure Invocation where
  program : String
  args : List String
  directory : Option String
  input : String

/-- How a program ended: its status, and what it wrote and said. -/
structure Ending where
  status : Nat
  output : String
  errors : String

abbrev Runner := Invocation → Except Trouble Ending

/-- The state of a line of commands. -/
structure Machine where
  input : List Char
  output : List Char := []
  errors : List Char := []
  status : Nat := 0
  ended : Bool := false

def withoutLastBreaks (cs : List Char) : List Char := (cs.reverse.dropWhile (· = '\n')).reverse

/-- The words so far, and the word that is being read. -/
structure Words where
  finished : List (List Char) := []
  current : Option (List Char) := none

def Words.append (w : Words) (cs : List Char) : Words :=
  { w with current := some (w.current.getD [] ++ cs) }

def Words.appendSplit (w : Words) : List Char → Words
  | [] => w
  | c :: rest =>
    if isBlank c then
      Words.appendSplit ⟨w.finished ++ w.current.toList, none⟩ rest
    else Words.appendSplit (w.append [c]) rest

def Words.all (w : Words) : List (List Char) := w.finished ++ w.current.toList

/-- Puts a piece to the words; `sub` runs the commands whose output is asked for. -/
def addPiece (sub : Machine → List Char → Machine) (m : Machine) (w : Words) :
    Piece → Machine × Words
  | .text cs _ => (m, w.append cs)
  | .status => (m, w.append (toString m.status).toList)
  | .output source quoted =>
    let r := sub { input := m.input } source
    let out := withoutLastBreaks r.output
    let m := { m with input := r.input, errors := m.errors ++ r.errors, status := r.status }
    (m, if quoted then w.append out else w.appendSplit out)

def expandWord (sub : Machine → List Char → Machine) (m : Machine) (pieces : List Piece) :
    Machine × List (List Char) :=
  let (m, w) := pieces.foldl (fun (m, w) p => addPiece sub m w p) (m, {})
  (m, w.all)

def expandWords (sub : Machine → List Char → Machine) (m : Machine) (words : List (List Piece)) :
    Machine × List (List Char) :=
  words.foldl (fun (m, done) pieces =>
    let (m, more) := expandWord sub m pieces
    (m, done ++ more)) (m, [])

/-- Where the output and the errors of a command go: to the output, the errors, or nowhere. -/
inductive Sink where
  | output
  | errors
  | nowhere
deriving DecidableEq

structure Streams where
  output : Sink := .output
  errors : Sink := .errors
  source : Option (List Char) := none

def nowherePath : List Char := "/dev/null".toList

def Streams.lead (files : Files) (s : Streams) (number : Nat) (path : Option (List Char))
    (target : Nat) : Streams :=
  match number, path with
  | 0, some path =>
    let text := if path = nowherePath then "" else
      ((files.read (String.ofList path)).toOption).getD ""
    { s with source := some text.toList }
  | 1, some _ => { s with output := .nowhere }
  | 2, some _ => { s with errors := .nowhere }
  | 1, none => { s with output := if target = 2 then s.errors else s.output }
  | 2, none => { s with errors := if target = 1 then s.output else s.errors }
  | _, _ => s

def streamsOf (files : Files) (sub : Machine → List Char → Machine) (m : Machine)
    (streams : List (Nat × Target)) : Machine × Streams :=
  streams.foldl (fun (m, s) (number, target) =>
    match target with
    | .stream n => (m, s.lead files number none n)
    | .file word =>
      let (m, words) := expandWord sub m word
      (m, s.lead files number (some words.flatten) 0)) (m, {})

def Machine.send (m : Machine) (sink : Sink) (cs : List Char) : Machine :=
  match sink with
  | .output => { m with output := m.output ++ cs }
  | .errors => { m with errors := m.errors ++ cs }
  | .nowhere => m

def statusOf (cs : List Char) : Nat := cs.foldl (fun n c => 10 * n + (c.toNat - 48)) 0 % 256

/-- Runs the words of a command; `line` runs a text of commands. -/
def runWords (files : Files) (line : Machine → List Char → Machine) (words : List (List Char))
    (input : List Char) : Result × Bool :=
  match words with
  | [] => ({ input }, false)
  | name :: words =>
    if name = "exit".toList then
      ({ input, status := (words.head?.map statusOf).getD 0 }, true)
    else if name = "sh".toList then
      let source := match words with
        | ['-', 'c'] :: source :: _ => source
        | _ => input
      let r := line { input } source
      ({ input := r.input, output := r.output, errors := r.errors, status := r.status }, false)
    else match runTool files name words input with
      | some r => (r, false)
      | none =>
        let said := "sh: 1: ".toList ++ name ++ ": not found\n".toList
        ({ input, errors := said, status := 127 }, false)

def runSimple (files : Files) (line : Machine → List Char → Machine) (m : Machine)
    (c : Simple) : Machine :=
  let (m, words) := expandWords line m c.words
  let (m, streams) := streamsOf files line m c.streams
  let (r, ended) := runWords files line words (streams.source.getD m.input)
  let m := if streams.source.isSome then m else { m with input := r.input }
  let m := (m.send streams.output r.output).send streams.errors r.errors
  { m with status := r.status, ended }

/-- Runs the commands of a pipe after the first, each on the output of the one before; gives the
commands that are left. -/
def runPipe (files : Files) (line : Machine → List Char → Machine) (start : Machine) :
    Machine → List (Joint × Simple) → Machine × List (Joint × Simple)
  | m, (.pipe, c) :: rest =>
    let r := runSimple files line { m with input := m.output, output := [] } c
    runPipe files line start { r with input := start.input, ended := false } rest
  | m, rest => (m, rest)

def runsAfter (status : Nat) : Joint → Bool
  | .next => true
  | .onSuccess => status = 0
  | .onFailure => status ≠ 0
  | .pipe => false

/-- Runs commands until one ends the line; `fuel` bounds their number. -/
def runCommands (files : Files) (line : Machine → List Char → Machine) :
    Nat → Machine → List (Joint × Simple) → Machine
  | 0, m, _ => m
  | _, m, [] => m
  | fuel + 1, m, (joint, c) :: rest =>
    if m.ended then m
    else if !runsAfter m.status joint then runCommands files line fuel m rest
    else if c.words.isEmpty && c.streams.isEmpty then runCommands files line fuel m rest
    else
      let first := runSimple files line { m with output := [] } c
      let (last, rest) := runPipe files line first first rest
      runCommands files line fuel { last with output := m.output ++ last.output } rest

/-- Runs a text of commands, in which others may be nested to a depth. -/
def runLine (files : Files) : Nat → Machine → List Char → Machine
  | 0, m, _ => { m with status := 2 }
  | depth + 1, m, source =>
    match parse? source with
    | none => { m with errors := m.errors ++ "sh: 1: Syntax error\n".toList, status := 2 }
    | some commands => runCommands files (runLine files depth) (commands.length + 1) m commands

def endingOf (files : Files) (words : List (List Char)) (input : String) : Ending :=
  let r := (runWords files (runLine files 20) words input.toList).1
  ⟨r.status, String.ofList r.output, String.ofList r.errors⟩

def commandsOfFile? (content : List Char) : Option (List Char) :=
  (stripPrefix? "#!/bin/sh".toList content).map fun rest => rest.dropWhile (· ≠ '\n')

def toolDirectories : List (List Char) := ["/usr/bin/".toList, "/bin/".toList]

def toolAt? (path : List Char) : Option (List Char) := do
  let name ← toolDirectories.findSome? fun d => stripPrefix? d path
  if toolNames.contains (String.ofList name) then some name else none

def run (files : Files) : Runner := fun call => do
  let files ← match call.directory with
    | some directory => files.within directory
    | none => pure files
  let program := call.program.toList
  let words := call.args.map (·.toList)
  match toolAt? program with
  | some name => return endingOf files (name :: words) call.input
  | none =>
    if program.contains '/' then
      let place ← files.resolve program
      let some found := files.fileAt? place | throw .permissionDenied
      if !found.isExecutable then throw .permissionDenied
      let text := ((String.fromUTF8? found.content).getD "").toList
      let source := (commandsOfFile? text).getD text
      return endingOf files (['s', 'h'] :: ['-', 'c'] :: [source]) call.input
    else if toolNames.contains call.program then
      return endingOf files (program :: words) call.input
    else throw .notFound

/-- The path of a command by its name, among those that can be run from anywhere. -/
def find? (files : Files) (name : String) : Option String :=
  if name.toList.contains '/' then
    if (toolAt? name.toList).isSome || files.isFile name.toList then some name else none
  else if toolNames.contains name then some ("/usr/bin/" ++ name) else none

end SingleFile.Command
