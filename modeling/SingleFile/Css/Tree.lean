import SingleFile.Css.Token

/-!
# Component values

Brackets and functions hold the values between their two ends; what is still open at the end of
the text is closed there.  A closing bracket that closes nothing stays as a token.
-/

namespace SingleFile.Css

/-- A token, or what stands between two brackets. -/
inductive Node where
  | token (t : Token)
  | function (name : String) (args : List Node)
  | block (b : Bracket) (content : List Node)
deriving Repr

namespace Node

def read : Nat → Option Bracket → List Token → List Node × List Token
  | 0, _, rest => ([], rest)
  | _ + 1, _, [] => ([], [])
  | fuel + 1, close, t :: r =>
    match t with
    | .function name =>
      let (args, r) := read fuel (some .round) r
      let (more, rest) := read fuel close r
      (.function name args :: more, rest)
    | .opening b =>
      let (content, r) := read fuel (some b) r
      let (more, rest) := read fuel close r
      (.block b content :: more, rest)
    | .closing b =>
      if close = some b then ([], r)
      else
        let (more, rest) := read fuel close r
        (.token t :: more, rest)
    | t =>
      let (more, rest) := read fuel close r
      (.token t :: more, rest)

def parse (css : String) : List Node :=
  let ts := tokens css
  (read (ts.length + 1) none ts).1

mutual

def depth : Node → Nat
  | .token _ => 0
  | .function _ args => depthAll args + 1
  | .block _ content => depthAll content + 1

def depthAll : List Node → Nat
  | [] => 0
  | n :: ns => max (depth n) (depthAll ns)

end

/-- Whether a value is white space or a comment. -/
def isGap : Node → Bool
  | .token .space | .token .comment => true
  | _ => false

def isComment : Node → Bool
  | .token .comment => true
  | _ => false

def isToken (t : Token) : Node → Bool
  | .token u => u = t
  | _ => false

def isIdent (name : String) : Node → Bool
  | .token (.ident n) => equalFold n.toList name.toList
  | _ => false

def skipGaps (ns : List Node) : List Node := ns.dropWhile isGap

def allGaps (ns : List Node) : Bool := ns.all isGap

def splitCommas : List Node → List (List Node)
  | [] => [[]]
  | n :: ns =>
    if n.isToken .comma then [] :: splitCommas ns
    else match splitCommas ns with
      | [] => [[n]]
      | part :: parts => (n :: part) :: parts

def isFault : Token → Bool
  | .badString | .badUrl | .closing _ => true
  | _ => false

def isDashed (name : String) : Bool := (stripPrefix? ['-', '-'] name.toList).isSome

/-- Whether the arguments of a reference to a variable start with its name, and a comma follows. -/
def isReference (args : List Node) : Bool :=
  match skipGaps args with
  | .token (.ident name) :: r =>
    isDashed name && match skipGaps r with
      | [] => true
      | n :: _ => n.isToken .comma
  | _ => false

mutual

def isValue : Node → Bool
  | .token t => !isFault t
  | .function name args =>
    (if equalFold name.toList "var".toList then isReference args else true) && areValues args
  | .block _ content => areValues content

def areValues : List Node → Bool
  | [] => true
  | n :: ns => isValue n && areValues ns

end

mutual

def isSound : Node → Bool
  | .token t => !isFault t
  | .function _ args => areSound args
  | .block _ content => areSound content

def areSound : List Node → Bool
  | [] => true
  | n :: ns => isSound n && areSound ns

end

end Node

end SingleFile.Css
