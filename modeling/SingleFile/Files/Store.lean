import SingleFile.Files.Path
import SingleFile.Text.Span

/-!
# Files

What is known of the files of a machine: their names from the root, their bytes, and the working
directory.  A directory exists where a file is in it.  A path is followed part by part, so a missing
directory is noticed even where the path leads out of it again.  The working directory of a program can
be removed while it runs; a `Machine` is the files, or why they cannot be told from such a place.
-/

namespace SingleFile

/-- Why something outside of the program failed. -/
inductive Trouble where
  | notFound
  | isADirectory
  | notADirectory
  | invalidData
  | invalidInput
  | invalidFilename
  | permissionDenied
  | brokenPipe
deriving DecidableEq, Repr

def Trouble.name : Trouble → String
  | notFound => "NotFound"
  | isADirectory => "IsADirectory"
  | notADirectory => "NotADirectory"
  | invalidData => "InvalidData"
  | invalidInput => "InvalidInput"
  | invalidFilename => "InvalidFilename"
  | permissionDenied => "PermissionDenied"
  | brokenPipe => "BrokenPipe"

/-- A file: its names from the root, its bytes, and whether it can be run. -/
structure File where
  place : List (List Char)
  content : ByteArray
  isExecutable : Bool := false

/-- The files of a machine, the directories known besides those that hold them, and the working
directory. -/
structure Files where
  directory : String := "/"
  entries : List File := []
  directories : List (List (List Char)) := []

/-- The files around a program, or why its working directory cannot be told. -/
abbrev Machine := Except Trouble Files

namespace Files

def namesOf (path : List Char) : List (List Char) := (splitAt '/' path).filter (· ≠ [])

def home (files : Files) : List (List Char) := namesOf files.directory.toList

def fileAt? (files : Files) (place : List (List Char)) : Option File :=
  files.entries.find? (·.place = place)

def isDirectory (files : Files) (place : List (List Char)) : Bool :=
  place.isPrefixOf files.home || files.directories.any place.isPrefixOf ||
    files.entries.any fun e => place.isPrefixOf e.place && place.length < e.place.length

/-- Follows one part of a path from a place, which has to be a directory. -/
def follow (files : Files) (place : List (List Char)) (part : Path.Part) :
    Except Trouble (List (List Char)) :=
  if !files.isDirectory place then .error .notADirectory
  else match part with
    | .root => .ok []
    | .here => .ok place
    | .up => .ok place.dropLast
    | .name cs =>
      let next := place ++ [cs]
      if byteLength cs > 255 then .error .invalidFilename
      else if files.isDirectory next || (files.fileAt? next).isSome then .ok next
      else .error .notFound

def asksForDirectory (path : List Char) : Bool :=
  path.getLast? = some '/' || ['.', '/'].isPrefixOf path.reverse

def resolve (files : Files) (path : List Char) : Except Trouble (List (List Char)) := do
  if path.contains '\x00' then throw .invalidInput
  if path.isEmpty then throw .notFound
  if byteLength path > 4095 then throw .invalidFilename
  let place ← (Path.parts path).foldlM files.follow files.home
  if asksForDirectory path && !files.isDirectory place then throw .notADirectory
  return place

def isFile (files : Files) (path : List Char) : Bool :=
  match files.resolve path with
  | .ok place => (files.fileAt? place).isSome
  | .error _ => false

def holds (files : Files) (path : List Char) : Bool := (files.resolve path).isOk

def file (files : Files) (path : List Char) : Except Trouble File := do
  let place ← files.resolve path
  match files.fileAt? place with
  | some found => return found
  | none => throw .isADirectory

def read (files : Files) (path : String) : Except Trouble String := do
  let found ← files.file path.toList
  match String.fromUTF8? found.content with
  | some text => return text
  | none => throw .invalidData

/-- The place that a path means where every directory on its way is there. -/
def placeOf (files : Files) (path : List Char) : List (List Char) :=
  (Path.parts path).foldl (fun place part =>
    match part with
    | .root => []
    | .here => place
    | .up => place.dropLast
    | .name cs => place ++ [cs]) files.home

/-- The files with one more.  Every directory on the way to it is there. -/
def add (files : Files) (path : String) (content : ByteArray) (isExecutable : Bool) : Files :=
  let above := (Path.ancestors path.toList).drop 1
  { files with
    entries := files.entries ++ [⟨files.placeOf path.toList, content, isExecutable⟩]
    directories := files.directories ++ above.map files.placeOf }

/-- The files of a machine whose working directory is another one. -/
def within (files : Files) (path : String) : Except Trouble Files := do
  let place ← files.resolve path.toList
  if files.isDirectory place then
    return { files with directory := String.ofList ('/' :: List.intercalate ['/'] place) }
  else throw .notADirectory

end Files

end SingleFile
