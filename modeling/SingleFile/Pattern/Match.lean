import SingleFile.Pattern.Syntax

/-!
# Matching

A pattern matches in several ways; `ways` lists them, the preferred one first.  Of two ways that end
at the same place only the first counts, since what follows cannot tell them apart.  A text matches
at the first place where there is a way, and in the preferred way there.
-/

namespace SingleFile.Pattern

/-- A place in a text, with the texts of the groups on the way there, the latest first. -/
structure Stand where
  offset : Nat := 0
  before : Option Char := none
  rest : List Char
  groups : List (Nat × List Char) := []

def wordBeside : Option Char → Bool
  | some c => Unicode.isWord c
  | none => false


def standsAt (before after : Option Char) : Place → Bool
  | .textStart => before.isNone
  | .textStop => after.isNone
  | .lineStart => before.isNone || before == some '\n'
  | .lineStop => after.isNone || after == some '\n'
  | .lineStartReturn =>
    before.isNone || before == some '\n' || (before == some '\r' && after != some '\n')
  | .lineStopReturn =>
    after.isNone || after == some '\r' || (after == some '\n' && before != some '\r')
  | .wordEdge => wordBeside before != wordBeside after
  | .noWordEdge => wordBeside before == wordBeside after
  | .wordStart => !wordBeside before && wordBeside after
  | .wordStop => wordBeside before && !wordBeside after
  | .wordStartHalf => !wordBeside before
  | .wordStopHalf => !wordBeside after

/-- The stands that differ in place from those before them. -/
def firstWays (stands : List Stand) : List Stand :=
  (stands.foldl (fun seen s => if seen.any (·.offset = s.offset) then seen else s :: seen) []).reverse

/-- More rounds of a loop from a stand that a round has led to, with the places between rounds that
were seen.  A round that takes nothing leads nowhere, and a place seen before leads nowhere new;
`fuel` bounds the rounds, each of which takes a character. -/
def moreRounds (round : Stand → List Stand) (greedy : Bool) :
    Nat → List Nat → Stand → List Nat × List Stand
  | 0, seen, s => (seen, [s])
  | fuel + 1, seen, s =>
    if seen.contains s.offset then (seen, [])
    else
      let step := fun (acc : List Nat × List Stand) (r : Stand) =>
        if r.offset = s.offset then acc
        else
          let (seen, ways) := moreRounds round greedy fuel acc.1 r
          (seen, acc.2 ++ ways)
      let (seen, more) := (round s).foldl step (s.offset :: seen, [])
      (seen, if greedy then more ++ [s] else s :: more)

/-- All rounds of a loop but the first, from the stands that the first has led to. -/
def laterRounds (round : Stand → List Stand) (greedy : Bool) (s : Stand) (first : List Stand) :
    List Stand :=
  let step := fun (acc : List Nat × List Stand) (r : Stand) =>
    if r.offset = s.offset then (acc.1, acc.2 ++ [r])
    else
      let (seen, ways) := moreRounds round greedy (s.rest.length + 1) acc.1 r
      (seen, acc.2 ++ ways)
  (first.foldl step ([], [])).2

/-- The ways in which a pattern matches from a stand, the preferred one first. -/
def Node.ways : Node → Stand → List Stand
  | .nothing, s => [s]
  | .one set, s =>
    match s.rest with
    | c :: rest => if set.contains c then [⟨s.offset + 1, some c, rest, s.groups⟩] else []
    | [] => []
  | .place p, s => if standsAt s.before s.rest.head? p then [s] else []
  | .group index body, s =>
    (body.ways s).map fun r =>
      { r with groups := (index, s.rest.take (r.offset - s.offset)) :: r.groups }
  | .sequence a b, s => firstWays ((a.ways s).flatMap b.ways)
  | .either a b, s => firstWays (a.ways s ++ b.ways s)
  | .optional greedy body, s =>
    firstWays (if greedy then body.ways s ++ [s] else s :: body.ways s)
  | .loop greedy body, s => firstWays (laterRounds body.ways greedy s (body.ways s))

/-- The preferred way of a pattern at the first place from which there is one. -/
def Node.search (node : Node) : Stand → List Char → Option Stand
  | s, [] => (node.ways s).head?.map fun r => { r with groups := (0, []) :: r.groups }
  | s, c :: rest =>
    match node.ways s with
    | r :: _ => some { r with groups := (0, s.rest.take (r.offset - s.offset)) :: r.groups }
    | [] => node.search ⟨s.offset + 1, some c, rest, []⟩ rest

/-- What a pattern found: the text of each group that took part, number 0 being the whole, and the
numbers of the named groups. -/
structure Captures where
  groups : List (Nat × List Char)
  names : List (String × Nat)

/-- The text of a group; nothing where the group does not exist or took no part. -/
def Captures.group (found : Captures) (index : Nat) : List Char :=
  (found.groups.lookup index).getD []

def Captures.named (found : Captures) (name : String) : List Char :=
  match found.names.lookup name with
  | some index => found.group index
  | none => []

def captures? (pattern : Pattern) (text : String) : Option Captures :=
  (pattern.node.search ⟨0, none, text.toList, []⟩ text.toList).map (⟨·.groups, pattern.names⟩)

def occursIn (pattern : Pattern) (text : String) : Bool := (pattern.captures? text).isSome

end SingleFile.Pattern
