import SingleFile.Number.Binary64

/-!
# JSON values

An object is the list of its fields as they are written, so that a repeated key and the order of
the keys are still there for the readers that care.  `Json.sorted` is the value with the fields of
every object sorted by key, the last of a repeated key taken; `Json.merge` lays one value over
another.
-/

namespace SingleFile

/-- A JSON number: whole numbers of 64 bits are kept exactly, all others as doubles. -/
inductive Json.Number where
  | natural (n : Nat)
  | negative (n : Nat)
  | real (x : Binary64)
deriving DecidableEq, Repr

/-- A JSON value.  `negative n` stands for `-n`; objects keep their fields as written. -/
inductive Json where
  | null
  | bool (b : Bool)
  | number (n : Json.Number)
  | string (s : String)
  | array (items : List Json)
  | object (fields : List (String × Json))
deriving Repr, Inhabited

namespace Json

/-- Puts a field into fields that are sorted by key, in place of one with the same key. -/
def insertField (key : String) (value : α) : List (String × α) → List (String × α)
  | [] => [(key, value)]
  | (k, v) :: rest =>
    if key = k then (key, value) :: rest
    else if key < k then (key, value) :: (k, v) :: rest
    else (k, v) :: insertField key value rest

def lookup (key : String) : List (String × α) → Option α
  | [] => none
  | (k, v) :: rest => if key = k then some v else lookup key rest

/-- Puts a field in place of the one with the same key, or at the end. -/
def setField (key : String) (value : α) : List (String × α) → List (String × α)
  | [] => [(key, value)]
  | (k, v) :: rest => if key = k then (k, value) :: rest else (k, v) :: setField key value rest

mutual

/-- The value with the fields of every object sorted by key; of fields with one key the last
is taken. -/
def sorted : Json → Json
  | .array items => .array (sortedItems items)
  | .object fields => .object ((sortedFields fields).foldl (fun acc f => insertField f.1 f.2 acc) [])
  | .null => .null
  | .bool b => .bool b
  | .number n => .number n
  | .string s => .string s

def sortedItems : List Json → List Json
  | [] => []
  | v :: rest => v.sorted :: sortedItems rest

def sortedFields : List (String × Json) → List (String × Json)
  | [] => []
  | (k, v) :: rest => (k, v.sorted) :: sortedFields rest

end

mutual

/-- Lays `overlay` over `base`: objects are merged key by key, anything else is replaced.
Both values are sorted. -/
def merge : Json → Json → Json
  | .object base, .object overlay => .object (mergeFields base overlay)
  | _, overlay => overlay

def mergeFields (base : List (String × Json)) : List (String × Json) → List (String × Json)
  | [] => base
  | (k, v) :: rest =>
    let merged := match lookup k base with
      | some old => merge old v
      | none => v
    mergeFields (insertField k merged base) rest

end

def get? : Json → String → Option Json
  | .object fields, key => lookup key fields
  | _, _ => none

end Json

end SingleFile
