/-!
# Log events

What is worth saying about a run, with a level and named texts.
-/

namespace SingleFile

/-- How much an event matters. -/
inductive Level where
  | debug
  | warn
  | error
deriving DecidableEq, Repr

def Level.name : Level → String
  | .debug => "DEBUG"
  | .warn => "WARN"
  | .error => "ERROR"

structure Event where
  level : Level
  message : String
  values : List (String × String) := []
deriving DecidableEq, Repr

def truthText (b : Bool) : String := if b then "true" else "false"

end SingleFile
