import SingleFile.Css.Selector

/-!
# Conditions of rules

What may stand between the name of a conditional rule and its block: media queries, container
queries, tests for support and names of layers.  A reader gives what is left, or fails; a query
that ends too early counts as missing, any other fault as wrong.
-/

namespace SingleFile.Css

inductive QueryFault where
  | ended
  | wrong
deriving DecidableEq, Repr

inductive FeatureType where
  | length
  | ratio
  | integer
  | number
  | resolution
  | boolean
  | word
  | unknown
deriving DecidableEq, Repr

namespace Query

open Node Selector

abbrev Reader (α : Type) := Except QueryFault (α × List Node)

/-! ## Features -/

def wordFeatures : List String :=
  ["orientation", "overflow-block", "overflow-inline", "display-mode", "scan", "update",
   "environment-blending", "color-gamut", "dynamic-range", "inverted-colors", "pointer", "hover",
   "any-pointer", "any-hover", "nav-controls", "video-color-gamut", "video-dynamic-range",
   "scripting", "prefers-reduced-motion", "prefers-reduced-transparency", "prefers-contrast",
   "forced-colors", "prefers-color-scheme", "prefers-reduced-data"]

def mediaType (name : String) : FeatureType :=
  if isOneOf ["width", "height", "device-width", "device-height"] name then .length
  else if isOneOf ["aspect-ratio", "device-aspect-ratio"] name then .ratio
  else if isOneOf ["horizontal-viewport-segments", "vertical-viewport-segments", "color",
      "color-index", "monochrome"] name then .integer
  else if isOneOf ["-webkit-device-pixel-ratio", "-moz-device-pixel-ratio"] name then .number
  else if isOneOf ["resolution"] name then .resolution
  else if isOneOf ["grid"] name then .boolean
  else if isOneOf wordFeatures name then .word
  else .unknown

def containerType (name : String) : FeatureType :=
  if isOneOf ["width", "height", "inline-size", "block-size"] name then .length
  else if isOneOf ["aspect-ratio"] name then .ratio
  else if isOneOf ["orientation"] name then .word
  else .unknown

def FeatureType.isRange : FeatureType → Bool
  | .boolean | .word => false
  | _ => true

/-- The type of a feature, and whether its name sets a limit. -/
def featureOf (types : String → FeatureType) (name : String) : FeatureType × Bool :=
  let cs := name.toList
  let limited (rest : List Char) (before : String) : Option (FeatureType × Bool) :=
    let t := types (before ++ String.ofList rest)
    if FeatureType.isRange t && t ≠ .unknown then some (t, true) else none
  let stripped := (stripPrefixFold? "min-".toList cs).orElse fun _ => stripPrefixFold? "max-".toList cs
  let vendor := (stripPrefixFold? "-webkit-min-".toList cs).orElse
    fun _ => stripPrefixFold? "-webkit-max-".toList cs
  match stripped.bind (limited · ""), vendor.bind (limited · "-webkit-") with
  | some found, _ => found
  | _, some found => found
  | _, _ => (types name, false)

def lengthUnits : List String :=
  ["px", "em", "rem", "ex", "rex", "ch", "rch", "cap", "rcap", "ic", "ric", "lh", "rlh", "cm", "mm",
   "in", "q", "pt", "pc", "vw", "vh", "vi", "vb", "vmin", "vmax", "svw", "svh", "svi", "svb",
   "svmin", "svmax", "lvw", "lvh", "lvi", "lvb", "lvmin", "lvmax", "dvw", "dvh", "dvi", "dvb",
   "dvmin", "dvmax", "cqw", "cqh", "cqi", "cqb", "cqmin", "cqmax"]

def value (expected : FeatureType) (ns : List Node) : Reader FeatureType :=
  match skipGaps ns with
  | [] => .error .ended
  | .token (.number t) :: r =>
    let second : Option (List Node) :=
      match skipGaps r with
      | .token (.delim '/') :: r =>
        match skipGaps r with
        | .token (.number _) :: r => some r
        | _ => none
      | _ => none
    match second with
    | some r => .ok (.ratio, r)
    | none =>
      if expected = .ratio then .ok (.ratio, r)
      else if expected = .integer && isWhole t then .ok (.integer, r)
      else if expected = .boolean && (t = "0" || t = "1") then .ok (.boolean, r)
      else if expected = .length && t = "0" then .ok (.length, r)
      else .ok (.number, r)
  | .token (.dimension _ unit) :: r =>
    if isOneOf lengthUnits unit then .ok (.length, r)
    else if isOneOf ["dpi", "dpcm", "dppx", "x"] unit then .ok (.resolution, r)
    else .error .wrong
  | .token (.ident _) :: r => .ok (.word, r)
  | .function name args :: r =>
    if isOneOf ["env"] name && areSound args then .ok (.unknown, r)
    else if isOneOf ["calc", "min", "max", "clamp"] name && areSound args then .ok (expected, r)
    else .error .wrong
  | _ => .error .wrong

def fits (expected found : FeatureType) : Bool :=
  expected = .unknown || found = .unknown || expected = found

def comparison : List Node → Option (Int × List Node)
  | ns =>
    let equals (r : List Node) : List Node :=
      match skipGaps r with
      | .token (.delim '=') :: r => r
      | _ => r
    match skipGaps ns with
    | .token (.delim '=') :: r => some (0, r)
    | .token (.delim '<') :: r => some (-1, equals r)
    | .token (.delim '>') :: r => some (1, equals r)
    | _ => none

def nameFirst (types : String → FeatureType) (ns : List Node) : Bool :=
  match skipGaps ns with
  | .token (.ident name) :: r =>
    let (type, limited) := featureOf types name
    let valued (ranged : Bool) (r : List Node) : Bool :=
      match value type r with
      | .ok (found, r) => fits type found && (!ranged || FeatureType.isRange type) && allGaps r
      | .error _ => false
    match skipGaps r with
    | [] => true
    | .token .colon :: r => valued limited r
    | r =>
      match comparison r with
      | some (_, r) => !limited && valued true r
      | none => false
  | _ => false

/-- Whether some values are a feature between or after what it is compared with. -/
def valueFirst (types : String → FeatureType) (ns : List Node) : Bool :=
  let names := ns.filterMap fun
    | .token (.ident name) => some name
    | _ => none
  match names with
  | [] => false
  | name :: _ =>
    let (type, limited) := featureOf types name
    if limited || !FeatureType.isRange type then false
    else
      match value type ns with
      | .error _ => false
      | .ok (found, r) =>
        match comparison r with
        | none => false
        | some (direction, r) =>
          match skipGaps r with
          | .token (.ident _) :: r =>
            fits type found &&
            match comparison r with
            | none => allGaps r
            | some (second, r) =>
              direction = second && direction ≠ 0 &&
              match value type r with
              | .ok (found, r) => fits type found && allGaps r
              | .error _ => false
          | _ => false

def isFeature (types : String → FeatureType) (ns : List Node) : Bool :=
  nameFirst types ns || valueFirst types ns

/-! ## Conditions -/

/-- The tests a condition is made of. -/
structure Kind where
  types : String → FeatureType
  allowStyle : Bool

/-- Whether the content of parentheses is a test or a condition; `nested` reads conditions. -/
def isTest (kind : Kind) (nested : List Node → Reader Unit) (content : List Node) : Bool :=
  match nested content with
  | .ok (_, r) => allGaps r || isFeature kind.types content
  | .error _ => isFeature kind.types content

def test (kind : Kind) (nested : List Node → Reader Unit) (ns : List Node) : Reader Unit :=
  match skipGaps ns with
  | [] => .error .ended
  | .block .round content :: r => if isTest kind nested content then .ok ((), r) else .error .wrong
  | .function name args :: r =>
    if kind.allowStyle && isOneOf ["style", "scroll-state"] name && areSound args then .ok ((), r)
    else .error .wrong
  | _ => .error .wrong

def moreTests (kind : Kind) (nested : List Node → Reader Unit) (word : String) :
    Nat → List Node → Reader Unit
  | 0, ns => .ok ((), ns)
  | fuel + 1, ns =>
    match skipGaps ns with
    | n :: r =>
      if n.isIdent word then
        match test kind nested r with
        | .ok (_, r) => moreTests kind nested word fuel r
        | .error e => .error e
      else .ok ((), ns)
    | [] => .ok ((), ns)

/-- Reads a condition; `allowOr` says whether alternatives may stand in it. -/
def condition (kind : Kind) : Nat → Bool → List Node → Reader Unit
  | 0, _, _ => .error .wrong
  | depth + 1, allowOr, ns =>
    let nested := condition kind depth true
    match skipGaps ns with
    | [] => .error .ended
    | n :: r =>
      if n.isIdent "not" then test kind nested r
      else
        match test kind nested (n :: r) with
        | .error e => .error e
        | .ok (_, r) =>
          match skipGaps r with
          | m :: _ =>
            if m.isIdent "and" then moreTests kind nested "and" r.length r
            else if m.isIdent "or" then
              if allowOr then moreTests kind nested "or" r.length r else .error .wrong
            else .ok ((), r)
          | [] => .ok ((), r)

/-! ## Media -/

def medium? (ns : List Node) : Option (List Node) :=
  let named (ns : List Node) : Option (List Node) :=
    match skipGaps ns with
    | .token (.ident _) :: r => some r
    | _ => none
  match skipGaps ns with
  | n :: r => if n.isIdent "only" || n.isIdent "not" then named r else named (n :: r)
  | [] => none

def mediaQuery (ns : List Node) : Reader Unit :=
  let kind : Kind := ⟨mediaType, false⟩
  let depth := depthAll ns + 1
  match medium? ns with
  | some r =>
    match skipGaps r with
    | n :: rest => if n.isIdent "and" then condition kind depth false rest else .ok ((), r)
    | [] => .ok ((), r)
  | none => condition kind depth true ns

/-- Whether some values are media queries with commas between them; the last one may be missing. -/
def areMedia (ns : List Node) : Bool :=
  let rec go : List (List Node) → Bool
    | [] => true
    | part :: parts =>
      match mediaQuery part with
      | .ok (_, r) => allGaps r && go parts
      | .error .ended => parts.isEmpty
      | .error .wrong => false
  go (splitCommas ns)

/-! ## Support -/

/-- Whether the content of a test for support has no fault on its own level. -/
def isPlain (ns : List Node) : Bool := areSound ns

def supportTest (ns : List Node) : Option (List Node) :=
  match skipGaps ns with
  | .function _ args :: r => if isPlain args then some r else none
  | .block .round content :: r => if isPlain content then some r else none
  | _ => none

def moreSupport (word : String) : Nat → List Node → List Node
  | 0, ns => ns
  | fuel + 1, ns =>
    match skipGaps ns with
    | n :: r =>
      if n.isIdent word then
        match supportTest r with
        | some r => moreSupport word fuel r
        | none => ns
      else ns
    | [] => ns

def isSupport (ns : List Node) : Bool :=
  let single (r : List Node) : Bool :=
    match supportTest r with
    | some r =>
      allGaps (moreSupport "and" r.length r) || allGaps (moreSupport "or" r.length r)
    | none => false
  match skipGaps ns with
  | n :: r =>
    if n.isIdent "not" then
      match supportTest r with
      | some r => allGaps r
      | none => false
    else single (n :: r)
  | [] => false

/-! ## Names -/

def dotted : Nat → List Node → List Node
  | 0, ns => ns
  | fuel + 1, ns =>
    match ns with
    | .token (.delim '.') :: .token (.ident _) :: r => dotted fuel r
    | ns => ns

def isLayer (ns : List Node) : Bool :=
  match skipGaps ns with
  | .token (.ident _) :: r => allGaps (dotted r.length r)
  | _ => false

/-- The number of layers named, where all the names are right. -/
def layerCount? (ns : List Node) : Option Nat :=
  if allGaps ns then some 0
  else
    let parts := splitCommas ns
    if parts.all isLayer then some parts.length else none

/-- Words that name nothing of the author's. -/
def wideWords : List String := ["initial", "inherit", "unset", "default", "revert", "revert-layer"]

def isContainer (ns : List Node) : Bool :=
  let kind : Kind := ⟨containerType, true⟩
  let conditioned (ns : List Node) : Bool :=
    match condition kind (depthAll ns + 1) true ns with
    | .ok (_, r) => allGaps r
    | .error _ => false
  match skipGaps ns with
  | .token (.ident name) :: r =>
    if isOneOf (wideWords ++ ["none", "and", "not", "or"]) name then conditioned ns
    else conditioned r
  | ns => conditioned ns

end Query

end SingleFile.Css
