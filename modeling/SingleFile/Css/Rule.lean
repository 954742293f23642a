import SingleFile.Css.Query
import SingleFile.Order.Stable

/-!
# Rules

`StyleSheet.parse` reads a style sheet, or nothing where a part of it is at fault.  Rules whose
names say nothing are kept with whatever stands in them.

The rules, queries and selectors are those that lightningcss reads by default, nested ones among them,
with the same faults.  The values of declarations are kept as they are written: but for `all` no
property has a grammar of its own, and a value is refused only for a broken token, a bracket that
closes nothing, or a reference to a variable without its name.  What a fault is and where is not kept.
-/

namespace SingleFile.Css

structure Declaration where
  name : String
  value : List Node
  important : Bool
deriving Repr

/-- A rule: one with selectors, one that holds such rules, or any other one by name. -/
inductive Rule where
  | style (selectors : List Selector) (declarations : List Declaration) (rules : List Rule)
  | group (name : String) (condition : List Node) (declarations : List Declaration)
      (rules : List Rule)
  | other (name : String) (words : List Node) (body : Option (List Node))
deriving Repr

/-- What stands between two braces. -/
structure Body where
  declarations : List Declaration := []
  rules : List Rule := []
deriving Repr

/-- Where a rule stands: in a rule with selectors, and where declarations may stand. -/
structure Context where
  inStyle : Bool := false
  allowDeclarations : Bool := false
deriving Repr

namespace Rule

open Node Selector Query

/-! ## Parts of a body -/

def endsWords (n : Node) : Bool :=
  match n with
  | .token .semicolon | .block .curly _ => true
  | _ => false

def isCurly (n : Node) : Bool :=
  match n with
  | .block .curly _ => true
  | _ => false

def isSemicolon (n : Node) : Bool := n.isToken .semicolon

/-- The values before the first one with a property, and the rest from there on. -/
def splitAtFirst (p : Node → Bool) (ns : List Node) : List Node × List Node :=
  (ns.takeWhile (!p ·), ns.dropWhile (!p ·))

/-- Whether what follows the value of a declaration is right; tells whether it is important. -/
def importance? (ns : List Node) : Option Bool :=
  match skipGaps ns with
  | [] => some false
  | .token (.delim '!') :: r =>
    match skipGaps r with
    | n :: r => if n.isIdent "important" && allGaps r then some true else none
    | [] => none
  | _ => none

/-- Whether a value is the only word for a property that sets all others. -/
def isWide (ns : List Node) : Bool :=
  match skipGaps ns with
  | .token (.ident w) :: r => isOneOf wideWords w && allGaps r
  | _ => false

def declaration? (name : String) (ns : List Node) : Option Declaration :=
  match skipGaps ns with
  | .token .colon :: r =>
    let custom := isDashed name
    let (value, rest) :=
      splitAtFirst (fun n => n.isToken (.delim '!') || (!custom && isCurly n)) r
    match importance? rest with
    | none => none
    | some important =>
      let fine := if isOneOf ["all"] name then isWide value else areValues value
      if fine then some ⟨name, value, important⟩ else none
  | _ => none

/-- Whether some values are declarations with semicolons between them, and rules that `isRule`
allows by their name, words and block. -/
def areItems (isRule : String → List Node → List Node → Bool) : Nat → List Node → Bool
  | 0, _ => false
  | fuel + 1, ns =>
    match ns.dropWhile fun n => n.isGap || isSemicolon n with
    | [] => true
    | .token (.ident name) :: r =>
      let (part, rest) := splitAtFirst isSemicolon r
      (declaration? name part).isSome && areItems isRule fuel rest
    | .token (.atKeyword name) :: r =>
      match splitAtFirst endsWords r with
      | (words, .block .curly content :: rest) =>
        isRule name words content && areItems isRule fuel rest
      | _ => false
    | _ => false

def areDeclarations (ns : List Node) : Bool := areItems (fun _ _ _ => false) (ns.length + 1) ns

/-! ## Rules by name -/

def groupNames : List String :=
  ["media", "supports", "layer", "container", "scope", "starting-style", "-moz-document"]

/-- The rules that may not stand in a rule with selectors. -/
def outerNames : List String :=
  ["font-face", "font-feature-values", "font-palette-values", "counter-style", "keyframes",
   "-webkit-keyframes", "-moz-keyframes", "-o-keyframes", "-ms-keyframes", "page", "property",
   "import", "namespace", "viewport", "-ms-viewport", "charset", "custom-media", "view-transition"]

def marginNames : List String :=
  ["top-left-corner", "top-left", "top-center", "top-right", "top-right-corner", "left-top",
   "left-middle", "left-bottom", "right-top", "right-middle", "right-bottom",
   "bottom-left-corner", "bottom-left", "bottom-center", "bottom-right", "bottom-right-corner"]

def arePageItems (ns : List Node) : Bool :=
  areItems (fun name words content =>
    isOneOf marginNames name && allGaps words && areDeclarations content) (ns.length + 1) ns

def isDashedName (ns : List Node) : Bool :=
  match skipGaps ns with
  | .token (.ident name) :: r => isDashed name && allGaps r
  | _ => false

/-- Whether some values are one name of the author's, none of the given words. -/
def isCustomName (except : List String) (ns : List Node) : Bool :=
  match skipGaps ns with
  | .token (.ident name) :: r => !isOneOf (wideWords ++ except) name && allGaps r
  | _ => false

def isAnimationName (ns : List Node) : Bool :=
  match skipGaps ns with
  | .token (.string _) :: r => allGaps r
  | _ => isCustomName ["none"] ns

def isPage (ns : List Node) : Bool :=
  let rec kinds : List Node → Bool
    | .token .colon :: .token (.ident k) :: r =>
      isOneOf ["left", "right", "first", "last", "blank"] k && kinds r
    | r => allGaps r
  match skipGaps ns with
  | [] => false
  | .token (.ident _) :: r => kinds r
  | r => kinds r

def areFonts (ns : List Node) : Bool :=
  (splitCommas ns).all fun part =>
    match skipGaps part with
    | .token (.string _) :: r => allGaps r
    | r =>
      !r.isEmpty && r.all fun n => n.isGap ||
        match n with
        | .token (.ident _) => true
        | _ => false

def isScope (ns : List Node) : Bool :=
  let list (content : List Node) : Bool := (readList true content).isSome
  let upper (ns : List Node) : Bool :=
    match skipGaps ns with
    | [] => true
    | n :: r =>
      n.isIdent "to" &&
      match skipGaps r with
      | .block .round content :: r => list content && allGaps r
      | _ => false
  match skipGaps ns with
  | .block .round content :: r => list content && upper r
  | r => upper r

def isUrlPrefix (ns : List Node) : Bool :=
  match skipGaps ns with
  | .function name args :: r =>
    isOneOf ["url-prefix"] name && allGaps r &&
      match skipGaps args with
      | [] => true
      | .token (.string "") :: r => allGaps r
      | _ => false
  | _ => false

def isGroup (name : String) (words : List Node) : Bool :=
  let is (n : String) : Bool := isOneOf [n] name
  if is "media" then areMedia words
  else if is "supports" then isSupport words
  else if is "layer" then
    match layerCount? words with
    | some n => n ≤ 1
    | none => false
  else if is "container" then isContainer words
  else if is "scope" then isScope words
  else if is "-moz-document" then isUrlPrefix words
  else allGaps words

def isProperty (content : List Node) : Bool :=
  let rec parts : Nat → List Node → List (String × List Node)
    | 0, _ => []
    | fuel + 1, ns =>
      match ns.dropWhile fun n => n.isGap || isSemicolon n with
      | .token (.ident name) :: r =>
        let (part, rest) := splitAtFirst isSemicolon r
        match skipGaps part with
        | .token .colon :: value => (name, value) :: parts fuel rest
        | _ => []
      | _ => []
  let found := parts (content.length + 1) content
  let value (name : String) : Option (List Node) := (found.find? fun p => isOneOf [name] p.1).map (·.2)
  let universal? : Option Bool := do
    match skipGaps (← value "syntax") with
    | .token (.string s) :: r => if allGaps r then some (s = "*") else none
    | _ => none
  let inherits : Bool :=
    match (value "inherits").map skipGaps with
    | some (n :: r) => (n.isIdent "true" || n.isIdent "false") && allGaps r
    | _ => false
  match universal? with
  | some universal => inherits && (universal || (value "initial-value").isSome)
  | none => false

/-- A rule that holds no rules with selectors, with its block. -/
def blockRule (name : String) (words content : List Node) : Option Rule :=
  let is (n : String) : Bool := isOneOf [n] name
  let fine :=
    if is "font-face" || is "view-transition" then allGaps words
    else if is "font-feature-values" then areFonts words
    else if is "font-palette-values" then isDashedName words
    else if is "counter-style" then isCustomName ["none"] words && areDeclarations content
    else if is "viewport" || is "-ms-viewport" then allGaps words && areDeclarations content
    else if isOneOf ["keyframes", "-webkit-keyframes", "-moz-keyframes", "-o-keyframes",
        "-ms-keyframes"] name then isAnimationName words
    else if is "page" then
      (allGaps words || (splitCommas words).all isPage) && arePageItems content
    else if is "property" then isDashedName words && isProperty content
    else if isOneOf ["import", "namespace", "charset", "custom-media"] name then false
    else areValues words && areValues content
  if fine then some (.other name words (some content)) else none

def plainRule (c : Context) (name : String) (words : List Node) : Option Rule :=
  if isOneOf ["layer"] name then
    match layerCount? words with
    | some n => if n = 0 || c.inStyle then none else some (.other name words none)
    | none => none
  else if isOneOf (groupNames ++ outerNames) name then none
  else if areValues words then some (.other name words none)
  else none

/-! ## Bodies -/

abbrev BodyReader := Context → List Node → Option Body

variable (nested : BodyReader)

/-- A rule by its name, with its block or without. -/
def atRule (c : Context) (name : String) (words : List Node) : Option (List Node) → Option Rule
  | none => plainRule c name words
  | some content =>
    if c.inStyle && isOneOf outerNames name then none
    else if isOneOf groupNames name then
      if isGroup name words then
        (nested { c with allowDeclarations := c.allowDeclarations || c.inStyle } content).map
          fun body => .group name words body.declarations body.rules
      else none
    else if c.inStyle && isOneOf ["nest"] name then
      match readList false words with
      | none => none
      | some _ =>
        (nested ⟨true, true⟩ content).map fun body => .group name words body.declarations body.rules
    else blockRule name words content

def styleRule (c : Context) (words content : List Node) : Option Rule := do
  let selectors ← readList c.inStyle words
  let body ← nested ⟨true, true⟩ content
  return .style selectors body.declarations body.rules

def readAtRule (c : Context) (name : String) (ns : List Node) : Option (Rule × List Node) :=
  match splitAtFirst endsWords ns with
  | (words, .block .curly content :: rest) =>
    (atRule nested c name words (some content)).map (·, rest)
  | (words, rest) => (atRule nested c name words none).map (·, rest.tail)

def readStyleRule (c : Context) (ns : List Node) : Option (Rule × List Node) :=
  let stops (n : Node) : Bool := isCurly n || (c.allowDeclarations && isSemicolon n)
  match splitAtFirst stops ns with
  | (words, .block .curly content :: rest) => (styleRule nested c words content).map (·, rest)
  | _ => none

def readItems (c : Context) : Nat → List Node → Option Body
  | 0, _ => none
  | fuel + 1, ns =>
    let rule (found : Option (Rule × List Node)) : Option Body := do
      let (rule, rest) ← found
      let body ← readItems c fuel rest
      return { body with rules := rule :: body.rules }
    match ns.dropWhile fun n => n.isGap || isSemicolon n with
    | [] => some {}
    | .token (.atKeyword name) :: r => rule (readAtRule nested c name r)
    | .token (.ident name) :: r =>
      if c.allowDeclarations then
        let (part, rest) := splitAtFirst isSemicolon r
        match declaration? name part with
        | some d => do
          let body ← readItems c fuel rest
          return { body with declarations := d :: body.declarations }
        | none => rule (readStyleRule nested c (.token (.ident name) :: r))
      else rule (readStyleRule nested c (.token (.ident name) :: r))
    | r => rule (readStyleRule nested c r)

/-- Reads a block; `depth` is more than how deep blocks are nested in it. -/
def readBody : Nat → BodyReader
  | 0, _, _ => none
  | depth + 1, c, ns => readItems (readBody depth) c (ns.length + 1) ns

end Rule

/-! ## Style sheets -/

structure StyleSheet where
  rules : List Rule
deriving Repr

namespace StyleSheet

open Node Selector Query Rule

/-- How far the reading of a style sheet has come: some rules may only stand before others. -/
inductive Stage where
  | start
  | layers
  | imports
  | namespaces
  | body
deriving DecidableEq, Repr

def Stage.rank : Stage → Nat
  | .start => 0
  | .layers => 1
  | .imports => 2
  | .namespaces => 3
  | .body => 4

def address? (ns : List Node) : Option (List Node) :=
  match skipGaps ns with
  | .token (.string _) :: r | .token (.url _) :: r => some r
  | .function name args :: r =>
    match skipGaps args with
    | .token (.string _) :: rest => if isOneOf ["url"] name && allGaps rest then some r else none
    | _ => none
  | _ => none

def isImport (ns : List Node) : Bool :=
  let afterLayer (ns : List Node) : Option (List Node) :=
    match skipGaps ns with
    | .function name args :: r =>
      if isOneOf ["layer"] name then (if isLayer args then some r else none) else some ns
    | n :: r => if n.isIdent "layer" then some r else some ns
    | [] => some ns
  let afterSupports (ns : List Node) : Option (List Node) :=
    match skipGaps ns with
    | .function name args :: r =>
      if isOneOf ["supports"] name then (if areSound args then some r else none) else some ns
    | _ => some ns
  match ((address? ns).bind afterLayer).bind afterSupports with
  | some r => areMedia r
  | none => false

def isNamespace (ns : List Node) : Bool :=
  let r := match skipGaps ns with
    | .token (.ident _) :: r => r
    | r => r
  match address? r with
  | some r => allGaps r
  | none => false

/-- A rule on the outermost level without a block, and the stage after it. -/
def plainRule? (stage : Stage) (name : String) (words : List Node) : Option (Rule × Stage) :=
  let rule := Rule.other name words none
  if isOneOf ["import"] name then
    if stage.rank ≤ Stage.imports.rank && isImport words then some (rule, .imports) else none
  else if isOneOf ["namespace"] name then
    if stage.rank ≤ Stage.namespaces.rank && isNamespace words then some (rule, .namespaces)
    else none
  else if isOneOf ["charset"] name then
    match skipGaps words with
    | .token (.string _) :: r => if allGaps r then some (rule, stage) else none
    | _ => none
  else if isOneOf ["custom-media"] name then
    match skipGaps words with
    | .token (.ident n) :: r => if isDashed n && areMedia r then some (rule, .body) else none
    | _ => none
  else
    (plainRule {} name words).map fun rule =>
      let isLayer := isOneOf ["layer"] name
      (rule, if isLayer then (if stage.rank ≤ Stage.layers.rank then .layers else stage) else stage)

def readAt? (nested : BodyReader) (stage : Stage) (name : String) (ns : List Node) :
    Option (Rule × Stage × List Node) :=
  match splitAtFirst endsWords ns with
  | (words, .block .curly content :: rest) =>
    (atRule nested {} name words (some content)).map (·, .body, rest)
  | (words, rest) => (plainRule? stage name words).map fun (rule, stage) => (rule, stage, rest.tail)

def isBetween (n : Node) : Bool := n.isGap || n.isToken .commentOpen || n.isToken .commentClose

def readRules (nested : BodyReader) : Nat → Stage → List Node → Option (List Rule)
  | 0, _, _ => none
  | fuel + 1, stage, ns =>
    match ns.dropWhile isBetween with
    | [] => some []
    | .token (.atKeyword name) :: r => do
      let (rule, stage, rest) ← readAt? nested stage name r
      return rule :: (← readRules nested fuel stage rest)
    | r => do
      let (rule, rest) ← readStyleRule nested {} r
      return rule :: (← readRules nested fuel .body rest)

def withoutCharset (ns : List Node) : List Node :=
  match ns.dropWhile isBetween with
  | .token (.atKeyword name) :: r =>
    if isOneOf ["charset"] name then (r.dropWhile (!isSemicolon ·)).tail else ns
  | _ => ns

/-- Reads a style sheet; nothing where it is at fault. -/
def parse (css : String) : Option StyleSheet :=
  let ns := Node.parse css
  let ns := withoutCharset ns
  (readRules (readBody (depthAll ns + 1)) (ns.length + 1) .start ns).map (⟨·⟩)

/-! ## Classes -/

mutual

/-- The classes in the selectors of a rule and of the rules in it. -/
def ruleClasses : Rule → List String
  | .style selectors _ rules => (selectors.map Selector.classes).flatten ++ rulesClasses rules
  | .group name _ _ rules =>
    if isOneOf ["media", "supports", "layer", "container"] name then rulesClasses rules else []
  | .other _ _ _ => []

def rulesClasses : List Rule → List String
  | [] => []
  | r :: rs => ruleClasses r ++ rulesClasses rs

end

/-- The classes of a style sheet, each once, in the order of their first places. -/
def classNames (sheet : StyleSheet) : List String := firstUses (rulesClasses sheet.rules)

end StyleSheet

end SingleFile.Css
