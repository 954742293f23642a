import SingleFile.Files.Store
import SingleFile.Json.Reader
import SingleFile.Resolution.NameMap
import SingleFile.Settings.Basic

/-!
# Faults

What can go wrong with a transformation, by its cause.  `TransformFault.message` is what is said of
it; faults of the transformation itself are set off by a banner, those of compilers are passed on as
they are.
-/

namespace SingleFile

/-- What is said of trouble outside of the program. -/
def Trouble.message : Trouble → String
  | notFound => "No such file or directory (os error 2)"
  | isADirectory => "Is a directory (os error 21)"
  | notADirectory => "Not a directory (os error 20)"
  | invalidData => "stream did not contain valid UTF-8"
  | invalidInput => "file name contained an unexpected NUL byte"
  | invalidFilename => "File name too long (os error 36)"
  | permissionDenied => "Permission denied (os error 13)"
  | brokenPipe => "Broken pipe (os error 32)"

/-- Why a compiler or a transformer failed: trouble outside of it, an answer that cannot be read, or
what it says itself. -/
inductive CompilerFault where
  | trouble (t : Trouble)
  | unreadable
  | message (text : String)
deriving DecidableEq, Repr

def CompilerFault.text : CompilerFault → String
  | trouble t => t.message
  | unreadable => "the answer cannot be read"
  | message text => text

/-- What can be wrong with the settings, or missing for a component: a compiler, a command, or the
working directory. -/
inductive SettingsFault where
  | settings
  | options (name : String)
  | unknownTransformer (name pattern : String)
  | transformPattern (pattern : String)
  | namePattern (pattern : String)
  | noHooks
  | noSetupCompiler (file : String)
  | noTypeScript (lang file : String)
  | noTemplateCompiler (file : String)
  | commandNotFound (name : String)
  | noDirectory (cause : Trouble)
deriving DecidableEq, Repr

def patternFault (what pattern : String) : String :=
  "invalid " ++ what ++ " pattern \"" ++ pattern ++ "\": not a pattern"

def SettingsFault.message : SettingsFault → String
  | settings => "invalid transform options: not settings in JSON"
  | options name => "invalid \x60globals." ++ name ++ "\x60 options: not options in JSON"
  | unknownTransformer name pattern =>
    "Could not find transformer \"" ++ name ++ "\" registered for \"" ++ pattern ++ "\""
  | transformPattern pattern => patternFault "transform" pattern
  | namePattern pattern => patternFault "moduleNameMapper" pattern
  | noHooks =>
    "transformer must contain at least one createTransformer(), process(), preprocess(), or " ++
    "postprocess() method"
  | noSetupCompiler file =>
    "No script setup compiler is configured; cannot compile <script setup> in " ++ file
  | noTypeScript lang file =>
    "No TypeScript compiler is configured; cannot compile lang=\"" ++ lang ++ "\" in " ++ file
  | noTemplateCompiler file =>
    "No template compiler is configured; cannot compile the template of " ++ file
  | commandNotFound name =>
    "Could not find compiler command \"" ++ name ++ "\". Install it locally or add it to PATH."
  | noDirectory cause => cause.message

/-- What ends a transformation. -/
inductive TransformFault where
  | load (src file : String) (cause : Trouble)
  | diagnostics (texts : List String)
  | settings (fault : SettingsFault)
  | compiler (fault : CompilerFault)
  | unreadableCss
deriving DecidableEq, Repr

/-- A text set off from what is around it. -/
def banner (text : String) : String := "\n[vue-jest] Error: " ++ text ++ "\n"

def TransformFault.message : TransformFault → String
  | load src file _ =>
    banner ("Failed to load src: \"" ++ src ++ "\" from file: \"" ++ file ++ "\"")
  | diagnostics _ => banner "Vue template compilation failed"
  | settings fault => banner fault.message
  | compiler fault => fault.text
  | unreadableCss => banner "failed to parse compiled CSS: not a style sheet"

def Settings.parse (text : String) : Except TransformFault Settings :=
  match (Json.parse text).bind Settings.ofJson with
  | some s => .ok s
  | none => .error (.settings .settings)

/-- The options of the user; without an entry for them they are the defaults. -/
def Settings.options (s : Settings) : Except TransformFault Options :=
  match s.optionsEntry? with
  | none => .ok {}
  | some (name, v) =>
    match Options.ofJson v with
    | some o => .ok o
    | none => .error (.settings (.options name))

/-- The files that a component is told by. -/
def Machine.files : Machine → Except TransformFault Files
  | .ok files => .ok files
  | .error cause => .error (.settings (.noDirectory cause))

def Project.nameMap (p : Project) : Except TransformFault NameMap :=
  match NameMap.ofPairs p.rootDir p.nameRules with
  | .ok map => .ok map
  | .error text => .error (.settings (.namePattern text))

end SingleFile
