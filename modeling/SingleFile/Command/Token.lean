import SingleFile.Text.Blank
import SingleFile.Text.Search

/-!
# The words of a command line

A line of commands is made of words and of the signs between them.  A word may be quoted, and may
contain the output of other commands.
-/

namespace SingleFile.Command

/-- A piece of a word; what is quoted is not split.  `output` is what other commands write. -/
inductive Piece where
  | text (cs : List Char) (quoted : Bool)
  | output (source : List Char) (quoted : Bool)
  | status
deriving Repr

/-- Where a stream is led to: a file or another stream. -/
inductive Target where
  | file (word : List Piece)
  | stream (number : Nat)
deriving Repr

/-- What joins a command to the one after it. -/
inductive Joint where
  | next
  | onSuccess
  | onFailure
  | pipe
deriving DecidableEq, Repr

/-- A token of a command line.  `redirect` leads the stream with a number to or from a target. -/
inductive Token where
  | word (pieces : List Piece)
  | redirect (number : Nat) (inward : Bool)
  | duplicate (number : Nat)
  | joint (j : Joint)
deriving Repr

/-- The text up to the parenthesis that closes one that was opened, and what follows it. -/
def untilClosed : Nat → Nat → List Char → Option (List Char × List Char)
  | 0, _, _ => none
  | _, _, [] => none
  | fuel + 1, depth, '\'' :: rest =>
    let quoted := rest.takeWhile (· ≠ '\'')
    match rest.dropWhile (· ≠ '\'') with
    | _ :: after =>
      (untilClosed fuel depth after).map fun r => ('\'' :: (quoted ++ '\'' :: r.1), r.2)
    | [] => none
  | fuel + 1, depth, '\\' :: c :: rest =>
    (untilClosed fuel depth rest).map fun r => ('\\' :: c :: r.1, r.2)
  | fuel + 1, depth, '(' :: rest =>
    (untilClosed fuel (depth + 1) rest).map fun r => ('(' :: r.1, r.2)
  | _ + 1, 0, ')' :: rest => some ([], rest)
  | fuel + 1, depth + 1, ')' :: rest =>
    (untilClosed fuel depth rest).map fun r => (')' :: r.1, r.2)
  | fuel + 1, depth, c :: rest => (untilClosed fuel depth rest).map fun r => (c :: r.1, r.2)

/-- Puts a character to the pieces of a word, which are listed from the last. -/
def addChar (c : Char) (quoted : Bool) : List Piece → List Piece
  | .text cs q :: before => if q = quoted then .text (cs ++ [c]) q :: before
    else .text [c] quoted :: .text cs q :: before
  | before => .text [c] quoted :: before

/-- What a dollar stands for, with what follows it.  No variable is set. -/
def dollar (quoted : Bool) : List Char → Option (Option Piece × List Char)
  | '(' :: rest => (untilClosed (rest.length + 2) 0 rest).map fun r => (some (.output r.1 quoted), r.2)
  | '?' :: rest => some (some .status, rest)
  | c :: rest =>
    if inVariable c then some (some (.text [] quoted), rest.dropWhile inVariable)
    else some (none, c :: rest)
  | [] => some (none, [])
where
  inVariable (c : Char) : Bool :=
    c = '_' || ('a' ≤ c && c ≤ 'z') || ('A' ≤ c && c ≤ 'Z') || ('0' ≤ c && c ≤ '9')

/-- The pieces between double quotes, listed from the last, with what follows the closing one. -/
def quotedPieces : Nat → List Piece → List Char → Option (List Piece × List Char)
  | 0, _, _ => none
  | _, _, [] => none
  | _, before, '"' :: rest => some (before, rest)
  | fuel + 1, before, '\\' :: c :: rest =>
    if c = '\n' then quotedPieces fuel before rest
    else if c = '$' ∨ c = '\x60' ∨ c = '"' ∨ c = '\\' then
      quotedPieces fuel (addChar c true before) rest
    else quotedPieces fuel (addChar c true (addChar '\\' true before)) rest
  | fuel + 1, before, '$' :: rest => do
    match ← dollar true rest with
    | (some piece, after) => quotedPieces fuel (piece :: before) after
    | (none, _) => quotedPieces fuel (addChar '$' true before) rest
  | fuel + 1, before, c :: rest => quotedPieces fuel (addChar c true before) rest

def endsWord (c : Char) : Bool := [' ', '\t', '\n', ';', '&', '|', '<', '>', '(', ')'].contains c

/-- The pieces of a word, listed from the last, with what follows it. -/
def wordPieces : Nat → List Piece → List Char → Option (List Piece × List Char)
  | 0, _, _ => none
  | _, before, [] => some (before, [])
  | fuel + 1, before, '\'' :: rest =>
    match rest.dropWhile (· ≠ '\'') with
    | _ :: after => wordPieces fuel (.text (rest.takeWhile (· ≠ '\'')) true :: before) after
    | [] => none
  | fuel + 1, before, '"' :: rest => do
    let (pieces, after) ← quotedPieces (rest.length + 1) (.text [] true :: before) rest
    wordPieces fuel pieces after
  | fuel + 1, before, '\\' :: c :: rest =>
    if c = '\n' then wordPieces fuel before rest
    else wordPieces fuel (addChar c true before) rest
  | fuel + 1, before, '$' :: rest => do
    match ← dollar false rest with
    | (some piece, after) => wordPieces fuel (piece :: before) after
    | (none, _) => wordPieces fuel (addChar '$' false before) rest
  | fuel + 1, before, c :: rest =>
    if endsWord c then some (before, c :: rest)
    else wordPieces fuel (addChar c false before) rest

def sign? : List Char → Option (Token × List Char)
  | '\n' :: rest => some (.joint .next, rest)
  | ';' :: rest => some (.joint .next, rest)
  | '&' :: '&' :: rest => some (.joint .onSuccess, rest)
  | '|' :: '|' :: rest => some (.joint .onFailure, rest)
  | '|' :: rest => some (.joint .pipe, rest)
  | '>' :: '&' :: rest => some (.duplicate 1, rest)
  | '>' :: '>' :: rest => some (.redirect 1 false, rest)
  | '>' :: rest => some (.redirect 1 false, rest)
  | '<' :: rest => some (.redirect 0 true, rest)
  | _ => none

/-- A sign that leads the stream with a number, with what follows it. -/
def numberedSign? : List Char → Option (Token × List Char)
  | c :: rest =>
    if '0' ≤ c ∧ c ≤ '9' then
      match sign? rest with
      | some (.redirect _ inward, after) => some (.redirect (c.toNat - 48) inward, after)
      | some (.duplicate _, after) => some (.duplicate (c.toNat - 48), after)
      | _ => none
    else none
  | [] => none

/-- The tokens of a text; nothing where a quote is not closed or a sign is not known. -/
def tokens : Nat → List Char → Option (List Token)
  | 0, _ => none
  | _, [] => some []
  | fuel + 1, c :: rest =>
    if c = ' ' ∨ c = '\t' then tokens fuel rest
    else if c = '#' then tokens fuel (rest.dropWhile (· ≠ '\n'))
    else match (numberedSign? (c :: rest)).orElse fun _ => sign? (c :: rest) with
      | some (token, after) => (tokens fuel after).map (token :: ·)
      | none => do
        let (pieces, after) ← wordPieces (rest.length + 2) [] (c :: rest)
        if after.length ≤ rest.length then
          (tokens fuel after).map (.word pieces.reverse :: ·)
        else none

/-- A command: its words, and where its streams are led to. -/
structure Simple where
  words : List (List Piece) := []
  streams : List (Nat × Target) := []
deriving Repr

/-- The commands of a line, each with what joins it to the one before. -/
def commands : List Token → Joint → Simple → Option (List (Joint × Simple))
  | [], joint, now => some [(joint, now)]
  | .word w :: rest, joint, now => commands rest joint { now with words := now.words ++ [w] }
  | .redirect n _ :: .word w :: rest, joint, now =>
    commands rest joint { now with streams := now.streams ++ [(n, .file w)] }
  | .duplicate n :: .word [.text [c] _] :: rest, joint, now =>
    commands rest joint { now with streams := now.streams ++ [(n, .stream (c.toNat - 48))] }
  | .joint j :: rest, joint, now => (commands rest j {}).map ((joint, now) :: ·)
  | _, _, _ => none

def parse? (source : List Char) : Option (List (Joint × Simple)) := do
  commands (← tokens (source.length + 1) source) .next {}

end SingleFile.Command
