import SingleFile.Json.Basic

/-!
# Records in JSON

A record is an object whose known fields occur at most once; fields with other names do not
count.  It may also be written as the list of its fields in order, where fields at the end may be
missing.  The readers below turn a value into what a field holds, or refuse it.
-/

namespace SingleFile.Json

def distinct : List String → Bool
  | [] => true
  | k :: rest => !rest.contains k && distinct rest

/-- The known fields of an object; nothing where one of them is repeated. -/
def objectFields (names : List String) : Json → Option (List (String × Json))
  | .object fields =>
    let known := fields.filter fun f => names.contains f.1
    if distinct (known.map (·.1)) then some known else none
  | _ => none

/-- The known fields of a record, given as an object or as a list. -/
def recordFields (names : List String) : Json → Option (List (String × Json))
  | .array items => if items.length ≤ names.length then some (names.zip items) else none
  | v => objectFields names v

def field (fields : List (String × Json)) (name : String) (read : Json → Option α) : Option α :=
  (lookup name fields).bind read

/-- A field that takes a default where it is missing. -/
def fieldOr (fields : List (String × Json)) (name : String) (default : α)
    (read : Json → Option α) : Option α :=
  match lookup name fields with
  | some v => read v
  | none => some default

/-- A value that may be `null`. -/
def optional (read : Json → Option α) : Json → Option (Option α)
  | .null => some none
  | v => (read v).map some

def asString : Json → Option String
  | .string s => some s
  | _ => none

def asBool : Json → Option Bool
  | .bool b => some b
  | _ => none

def asWord : Json → Option Nat
  | .number (.natural n) => if n < 2 ^ 32 then some n else none
  | _ => none

def asList (read : Json → Option α) : Json → Option (List α)
  | .array items => items.mapM read
  | _ => none

/-- The fields of an object in the order written. -/
def asFields (read : Json → Option α) : Json → Option (List (String × α))
  | .object fields => fields.mapM fun f => (read f.2).map (f.1, ·)
  | _ => none

/-- The fields of an object sorted by key, the last of a repeated key taken. -/
def asSortedFields (read : Json → Option α) (v : Json) : Option (List (String × α)) :=
  (asFields read v).map (·.foldl (fun acc f => insertField f.1 f.2 acc) [])

def asObject : Json → Option Json
  | .object fields => some (sorted (.object fields))
  | _ => none

/-- The value of a string, or `null`. -/
def ofOption (v : Option String) : Json :=
  match v with
  | some s => .string s
  | none => .null

end SingleFile.Json
