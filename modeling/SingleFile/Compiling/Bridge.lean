import SingleFile.Command.Run
import SingleFile.Compiling.Compiler
import SingleFile.Json.Writer
import SingleFile.Text.Blank

/-!
# Compilers behind a command

A command takes a request as one JSON document, with the kind of the request, and answers with what it
made under `ok`, or with what is wrong under `error`.  A command that ends with another status than
zero has failed, and what it said tells why.
-/

namespace SingleFile

inductive RequestKind where
  | script
  | setup
  | template
  | style
deriving DecidableEq, Repr

def RequestKind.tag : RequestKind → String
  | script => "script"
  | setup => "scriptSetup"
  | template => "template"
  | style => "style"

def RequestKind.name : RequestKind → String
  | script => "Script"
  | setup => "ScriptSetup"
  | template => "Template"
  | style => "Style"

/-- A command that compiles, with the words it is always given and the directory it works in. -/
structure Bridge where
  program : String
  args : List String := []
  directory : Option String := none

namespace Bridge

def commandsPath : List Char := "node_modules/.bin".toList

/-- Finds a command by its name: among those of the project, then among those that can be run from
anywhere. -/
def locate (files : Files) (name workspace : String) : Except TransformFault Bridge :=
  let near := Path.join (Path.join workspace.toList commandsPath) name.toList
  let found := if files.holds near then some (String.ofList near) else Command.find? files name
  match found with
  | some program => .ok { program, directory := some workspace }
  | none => .error (.settings (.commandNotFound name))

def envelope (kind : RequestKind) (payload : Json) : String :=
  (Json.object [("kind", .string kind.tag), ("payload", payload)]).compact

def readReply (read : Json → Option α) (text : String) : Except CompilerFault α :=
  match Json.parse text with
  | some (.object [("ok", v)]) =>
    match read v with
    | some a => .ok a
    | none => .error .unreadable
  | some (.object [("error", .string message)]) => .error (.message message)
  | _ => .error .unreadable

def failure (b : Bridge) (ending : Command.Ending) : String :=
  b.program ++ " exited with exit status: " ++ toString ending.status ++ ": " ++
    String.ofList (trim ending.errors.toList)

def decode (b : Bridge) (read : Json → Option α) (ending : Command.Ending) :
    Except CompilerFault α :=
  if ending.status = 0 then readReply read ending.output
  else .error (.message (b.failure ending))

def call (runner : Command.Runner) (b : Bridge) (kind : RequestKind) (payload : Json)
    (read : Json → Option α) : Work κ α := do
  Routine.log ⟨.debug, "bridge request", [("program", b.program), ("kind", kind.name)]⟩
  match runner ⟨b.program, b.args, b.directory, envelope kind payload⟩ with
  | .ok ending => Routine.ofExcept (b.decode read ending)
  | .error t => throw (.trouble t)

def compiler (runner : Command.Runner) (b : Bridge) (kind : RequestKind) (write : ρ → Json)
    (read : Json → Option α) : Compiler κ ρ α :=
  .ofBlocking fun request => b.call runner kind (write request) read

def script (runner : Command.Runner) (b : Bridge) : Compiler κ ScriptRequest Fragment :=
  b.compiler runner .script ScriptRequest.toJson Fragment.ofJson

def setup (runner : Command.Runner) (b : Bridge) : Compiler κ SetupRequest SetupOutput :=
  b.compiler runner .setup SetupRequest.toJson SetupOutput.ofJson

def template (runner : Command.Runner) (b : Bridge) : Compiler κ TemplateRequest TemplateOutput :=
  b.compiler runner .template TemplateRequest.toJson TemplateOutput.ofJson

def style (runner : Command.Runner) (b : Bridge) : Compiler κ StyleRequest StyleOutput :=
  b.compiler runner .style StyleRequest.toJson StyleOutput.ofJson

end Bridge

end SingleFile
