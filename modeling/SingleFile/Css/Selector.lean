import SingleFile.Css.Tree

/-!
# Selectors

A selector is a list of parts: simple selectors, and the combinators between compounds of them.
`Selector.readList` reads the selectors before a block.  A functional pseudo-class or pseudo-element
holds the selectors that it is given; all but those that match against selectors hold what they are
given as it stands as well.
-/

namespace SingleFile.Css

/-- How one compound stands to the next. -/
inductive Combinator where
  | descendant
  | child
  | next
  | later
deriving DecidableEq, Repr

/-- The pseudo-classes that match against selectors. -/
inductive Matching where
  | negation
  | anyOf
  | anywhere
  | relative
deriving DecidableEq, Repr

/-- A part of a selector.  Functions that are given no selectors hold none. -/
inductive Part where
  | combinator (c : Combinator)
  | type (name : String)
  | nesting
  | id (name : String)
  | className (name : String)
  | attribute (content : List Node)
  | pseudoClass (name : String)
  | pseudoElement (name : String)
  | matching (kind : Matching) (selectors : List (List Part))
  | classFunction (name : String) (args : List Node) (selectors : List (List Part))
  | elementFunction (name : String) (args : List Node) (selectors : List (List Part))
deriving Repr

abbrev Selector := List Part

/-- What the parts read so far allow to follow. -/
structure Standing where
  afterPart : Bool := false
  afterSlotted : Bool := false
  afterElement : Bool := false
  afterScrollbar : Bool := false
  noElements : Bool := false
  noCombinators : Bool := false
deriving DecidableEq, Repr

def Standing.afterPseudo (s : Standing) : Bool := s.afterPart || s.afterSlotted || s.afterElement

namespace Selector

/-! ## Names -/

def isOneOf (names : List String) (name : String) : Bool :=
  names.any fun n => equalFold n.toList name.toList

/-- The pseudo-elements that may be written with one colon. -/
def oldElements : List String := ["before", "after", "first-line", "first-letter"]

def scrollbarElements : List String :=
  ["-webkit-scrollbar", "-webkit-scrollbar-button", "-webkit-scrollbar-track",
   "-webkit-scrollbar-track-piece", "-webkit-scrollbar-thumb", "-webkit-scrollbar-corner",
   "-webkit-resizer"]

/-- The pseudo-elements after which only a state may follow. -/
def knownElements : List String :=
  oldElements ++ scrollbarElements ++
  ["cue", "cue-region", "selection", "-moz-selection", "placeholder", "-webkit-input-placeholder",
   "-moz-placeholder", "-ms-input-placeholder", "marker", "backdrop", "-webkit-backdrop",
   "file-selector-button", "-webkit-file-upload-button", "-ms-browse", "view-transition",
   "details-content", "target-text", "picker-icon", "checkmark", "grammar-error",
   "spelling-error"]

/-- The functional pseudo-elements after which only a state may follow. -/
def knownElementFunctions : List String :=
  ["cue", "cue-region", "view-transition-group", "view-transition-image-pair",
   "view-transition-old", "view-transition-new", "picker"]

def scrollbarStates : List String :=
  ["horizontal", "vertical", "decrement", "increment", "start", "end", "double-button",
   "single-button", "no-button", "corner-present", "window-inactive"]

def elementStates : List String := ["active", "hover", "focus", "focus-within", "focus-visible"]

/-- The pseudo-classes that depend on the place in the document. -/
def structural : List String :=
  ["first-child", "last-child", "only-child", "root", "empty", "scope", "host", "first-of-type",
   "last-of-type", "only-of-type"]

def counting : List String :=
  ["nth-child", "nth-last-child", "nth-of-type", "nth-last-of-type", "nth-col", "nth-last-col"]

/-! ## Counting -/

def isWhole (text : String) : Bool :=
  text.toList.all fun c => isDigit c || c = '+' || c = '-'

def hasSign (text : String) : Bool :=
  match text.toList with
  | '+' :: _ | '-' :: _ => true
  | _ => false

/-- Whether a name is `n-` with digits after it. -/
def isNDashDigits (cs : List Char) : Bool :=
  match cs with
  | n :: '-' :: ds => (n = 'n' || n = 'N') && !ds.isEmpty && ds.all isDigit
  | _ => false

def unsigned? (ns : List Node) : Option (List Node) :=
  match Node.skipGaps ns with
  | .token (.number t) :: r => if isWhole t && !hasSign t then some r else none
  | _ => none

def offset? (ns : List Node) : Option (List Node) :=
  match Node.skipGaps ns with
  | .token (.delim '+') :: r | .token (.delim '-') :: r => unsigned? r
  | .token (.number t) :: r => if isWhole t && hasSign t then some r else some ns
  | _ => some ns

def multiple? (name : List Char) (ns : List Node) : Option (List Node) :=
  if equalFold name ['n'] then offset? ns
  else if equalFold name ['n', '-'] then unsigned? ns
  else if isNDashDigits name then some ns
  else none

def count? (ns : List Node) : Option (List Node) :=
  match Node.skipGaps ns with
  | .token (.number t) :: r => if isWhole t then some r else none
  | .token (.dimension t unit) :: r => if isWhole t then multiple? unit.toList r else none
  | .token (.ident name) :: r =>
    if isOneOf ["even", "odd"] name then some r
    else match name.toList with
      | '-' :: cs => multiple? cs r
      | cs => multiple? cs r
  | .token (.delim '+') :: .token (.ident name) :: r => multiple? name.toList r
  | _ => none

/-! ## Types and attributes -/

/-- What a reader finds: nothing of its kind, or a value and the rest. -/
abbrev Found (α : Type) := Option (α × List Node)

/-- Reads the name after the namespace.  The outer option fails where the name is missing. -/
def localName (space : String) (inAttribute : Bool) : List Node → Option (Found String)
  | .token (.delim '*') :: r => if inAttribute then none else some (some (space ++ "|*", r))
  | .token (.ident name) :: r => some (some (space ++ "|" ++ name, r))
  | _ => none

def qualifiedName (inAttribute : Bool) : List Node → Option (Found String)
  | .token (.ident space) :: .token (.delim '|') :: r => localName space inAttribute r
  | .token (.ident name) :: r => some (some (name, r))
  | .token (.delim '*') :: .token (.delim '|') :: r => localName "*" inAttribute r
  | .token (.delim '*') :: r => if inAttribute then none else some (some ("*", r))
  | .token (.delim '|') :: r => localName "" inAttribute r
  | _ => if inAttribute then none else some none

def isFlag (ns : List Node) : Bool :=
  match Node.skipGaps ns with
  | [] => true
  | n :: r => (n.isIdent "i" || n.isIdent "s") && Node.allGaps r

def isAttribute (content : List Node) : Bool :=
  match qualifiedName true (Node.skipGaps content) with
  | some (some (_, r)) =>
    let valued (r : List Node) : Bool :=
      match Node.skipGaps r with
      | .token (.ident _) :: r | .token (.string _) :: r => isFlag r
      | _ => false
    match Node.skipGaps r with
    | [] => true
    | .token (.delim '=') :: r => valued r
    | .token (.comparison _) :: r => valued r
    | _ => false
  | _ => false

/-! ## Simple selectors -/

/-- Reads the selectors that are given to a pseudo-class.  The arguments say whether they are
relative, whether those with faults are dropped, and what may stand in them. -/
abbrev ListReader := Bool → Bool → Standing → List Node → Option (List Selector)

variable (lists : ListReader)

/-- The standing inside a pseudo-class that allows no pseudo-elements. -/
def inside (s : Standing) : Standing := { s with noElements := true }

def innerCompound (s : Standing) (args : List Node) : Option (List Selector) :=
  if (Node.splitCommas args).length = 1 then
    lists false false { s with noElements := true, noCombinators := true } args
  else none

def simpleClass (s : Standing) (name : String) : Option Part :=
  let scrollbar := isOneOf scrollbarStates name
  if !s.afterPseudo && isOneOf structural name then some (.pseudoClass name)
  else if s.afterSlotted then none
  else if s.afterScrollbar then
    if scrollbar || isOneOf ["enabled", "disabled", "hover", "active"] name then
      some (.pseudoClass name)
    else none
  else if s.afterElement then
    if isOneOf elementStates name then some (.pseudoClass name) else none
  else if scrollbar then none
  else some (.pseudoClass name)

def countedSelectors (s : Standing) (name : String) (args : List Node) :
    Option (List Selector) := do
  match Node.skipGaps (← count? args) with
  | [] => return []
  | n :: r =>
    if isOneOf ["nth-child", "nth-last-child"] name && n.isIdent "of" then
      lists false true (inside s) r
    else none

def areLanguages (args : List Node) : Bool :=
  (Node.splitCommas args).all fun part =>
    match Node.skipGaps part with
    | .token (.ident _) :: r | .token (.string _) :: r => Node.allGaps r
    | _ => false

def functionalClass (s : Standing) (name : String) (args : List Node) : Option Part :=
  let is (n : String) : Bool := equalFold name.toList n.toList
  if is "not" then (lists false false (inside s) args).map (.matching .negation)
  else if is "is" then (lists false true (inside s) args).map (.matching .anyOf)
  else if is "where" then (lists false true (inside s) args).map (.matching .anywhere)
  else if is "has" then (lists true true s args).map (.matching .relative)
  else
    let plain (fine : Bool) : Option (List Selector) := if fine then some [] else none
    let selectors : Option (List Selector) :=
      if isOneOf counting name then
        if s.afterPseudo then none else countedSelectors lists s name args
      else if is "host" then if s.afterPseudo then none else innerCompound lists s args
      else if is "-webkit-any" || is "-moz-any" then lists false true (inside s) args
      else if s.afterPseudo then none
      else if is "lang" then plain (areLanguages args)
      else if is "dir" then
        match Node.skipGaps args with
        | n :: r => plain ((n.isIdent "ltr" || n.isIdent "rtl") && Node.allGaps r)
        | [] => none
      else plain (Node.areSound args)
    selectors.map (.classFunction name args)

def simpleElement (s : Standing) (name : String) : Option (Part × Standing) :=
  if s.afterElement || s.noElements then none
  else if isOneOf scrollbarElements name then
    some (.pseudoElement name, { s with afterElement := true, afterScrollbar := true })
  else if isOneOf knownElements name then
    some (.pseudoElement name, { s with afterElement := true })
  else some (.pseudoElement name, s)

def areNames (args : List Node) : Bool :=
  let names := args.filter fun n => !n.isGap
  !names.isEmpty && names.all fun
    | .token (.ident _) => true
    | _ => false

def functionalElement (s : Standing) (name : String) (args : List Node) :
    Option (Part × Standing) :=
  let is (n : String) : Bool := equalFold name.toList n.toList
  let part := Part.elementFunction name args
  if s.afterElement || s.noElements then none
  else if is "part" then
    if !s.afterPseudo && areNames args then some (part [], { s with afterPart := true }) else none
  else if is "slotted" then
    if s.afterPseudo then none
    else (innerCompound lists s args).map fun found => (part found, { s with afterSlotted := true })
  else if is "cue" || is "cue-region" then
    if (Node.splitCommas args).length = 1 then
      (lists false false {} args).map fun found => (part found, { s with afterElement := true })
    else none
  else if !Node.areSound args then none
  else if isOneOf knownElementFunctions name then some (part [], { s with afterElement := true })
  else some (part [], s)

def pseudo (s : Standing) (twoColons : Bool) : List Node → Option (Part × Standing × List Node)
  | .token (.ident name) :: r =>
    if twoColons || isOneOf oldElements name then
      (simpleElement s name).map fun (p, s) => (p, s, r)
    else (simpleClass s name).map fun p => (p, s, r)
  | .function name args :: r =>
    if twoColons || isOneOf oldElements name then
      (functionalElement lists s name args).map fun (p, s) => (p, s, r)
    else (functionalClass lists s name args).map fun p => (p, s, r)
  | _ => none

def simple (s : Standing) : List Node → Option (Option (Part × Standing × List Node))
  | .token (.hash name true) :: r =>
    if s.afterPseudo then none else some (some (.id name, s, r))
  | .token (.delim '.') :: r =>
    if s.afterPseudo then none
    else match r with
      | .token (.ident name) :: r => some (some (.className name, s, r))
      | _ => none
  | .block .square content :: r =>
    if !s.afterPseudo && isAttribute content then some (some (.attribute content, s, r)) else none
  | .token .colon :: .token .colon :: r => (pseudo lists s true r).map some
  | .token .colon :: r => (pseudo lists s false r).map some
  | .token (.delim '&') :: r => some (some (.nesting, s, r))
  | _ => some none

def simples : Nat → Standing → List Node → Option (List Part × Standing × List Node)
  | 0, _, _ => none
  | fuel + 1, s, ns => do
    match ← simple lists s ns with
    | none => return ([], s, ns)
    | some (part, s, rest) =>
      let (parts, s, rest) ← simples fuel s rest
      return (part :: parts, s, rest)

def compound (fuel : Nat) (s : Standing) (ns : List Node) :
    Option (List Part × Standing × List Node) := do
  let ns := Node.skipGaps ns
  match ← qualifiedName false ns with
  | some (name, rest) =>
    if s.afterPseudo then none
    let (parts, s, rest) ← simples lists fuel s rest
    return (.type name :: parts, s, rest)
  | none =>
    let (parts, s, rest) ← simples lists fuel s ns
    if parts.isEmpty then none
    return (parts, s, rest)

/-- Reads a combinator; nothing where the selector ends. -/
def combinator? (ns : List Node) : Option (Option (Combinator × List Node)) :=
  match Node.skipGaps ns with
  | [] => some none
  | .token (.delim '>') :: r => some (some (.child, r))
  | .token (.delim '+') :: r => some (some (.next, r))
  | .token (.delim '~') :: r => some (some (.later, r))
  | r => if r.length < ns.length then some (some (.descendant, r)) else none

def readOne : Nat → Standing → List Node → Option Selector
  | 0, _, _ => none
  | fuel + 1, s, ns => do
    let (parts, s, rest) ← compound lists (ns.length + 1) s ns
    if s.afterPseudo then
      if Node.allGaps rest then return parts else none
    else
      match ← combinator? rest with
      | none => return parts
      | some (c, rest) =>
        if s.noCombinators then none
        let more ← readOne fuel s rest
        return parts ++ .combinator c :: more

def readRelative (s : Standing) (ns : List Node) : Option Selector :=
  let ns := Node.skipGaps ns
  let after (c : Combinator) (r : List Node) : Option Selector :=
    (readOne lists (r.length + 1) s r).map (.combinator c :: ·)
  match ns with
  | .token (.delim '>') :: r => after .child r
  | .token (.delim '+') :: r => after .next r
  | .token (.delim '~') :: r => after .later r
  | ns => readOne lists (ns.length + 1) s ns

/-- Reads selectors with commas between them; `depth` is more than how deep their functions are
nested. -/
def readLists : Nat → ListReader
  | 0, _, _, _, _ => none
  | depth + 1, relative, forgiving, s, ns =>
    let parts := Node.splitCommas (ns.filter fun n => !n.isComment)
    let read (part : List Node) : Option Selector :=
      if relative then readRelative (readLists depth) s part
      else readOne (readLists depth) (part.length + 1) s part
    if forgiving then some (parts.filterMap read) else parts.mapM read

/-- Reads the selectors before a block; inside another rule they may be relative. -/
def readList (relative : Bool) (ns : List Node) : Option (List Selector) :=
  readLists (Node.depthAll ns + 1) relative false {} ns

/-! ## Classes -/

mutual

/-- The classes in a part, also in the selectors it matches against. -/
def partClasses : Part → List String
  | .className name => [name]
  | .matching _ selectors => listClasses selectors
  | _ => []

def groups : List Part → List (List String)
  | [] => [[]]
  | .combinator _ :: ps => [] :: groups ps
  | p :: ps =>
    match groups ps with
    | [] => [partClasses p]
    | g :: gs => (partClasses p ++ g) :: gs

/-- The classes of some selectors, those of the last compound of each first. -/
def listClasses : List (List Part) → List String
  | [] => []
  | s :: more => (groups s).reverse.flatten ++ listClasses more

end

/-- The classes of a selector, those of its last compound first. -/
def classes (s : Selector) : List String := (groups s).reverse.flatten

end Selector

end SingleFile.Css
