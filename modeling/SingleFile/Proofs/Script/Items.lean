import SingleFile.Proofs.Script.Advance
import SingleFile.Proofs.Script.Trace

/-!
# Where the items of a module stand

The items of a module stand one behind the other, each from its first token to its last one
(`laidOut_parse`), and the part of a declaration that may be replaced starts with it, is not empty
and lies in it (`Item.Placed`).
-/

namespace SingleFile.Script

open Reading

/-- Whether an item is a declaration by which a module imports or exports. -/
def Item.isDeclaration : Item → Bool
  | .statement _ _ => false
  | _ => true

/-- Where the part of a declaration ends that may be replaced: before the declaration or value that
follows its keywords, or at its end. -/
def Item.headStop : Item → Nat
  | .statement span _ => span.start
  | .importing span _ _ | .exportNamed span _ _ | .exportAll span _ => span.stop
  | .exportValue _ start | .exportDefault _ start _ | .exportDeclaration _ start _ => start

/-- An item covers the script from `start` to `stop`, between characters, and so does the part that
may be replaced, which is empty for statements only. -/
structure Item.Placed (script : List Char) (start stop : Nat) (item : Item) : Prop where
  span : item.span = ⟨start, stop⟩
  cutsStart : Cuts script start
  cutsStop : Cuts script stop
  opens : item.isDeclaration = true → start < item.headStop
  closes : item.headStop ≤ stop
  cutsHead : Cuts script item.headStop

theorem Item.Placed.start_le {script : List Char} {start stop : Nat} {item : Item}
    (h : item.Placed script start stop) : start ≤ item.headStop := by
  cases hitem : item.isDeclaration with
  | true => exact Nat.le_of_lt (h.opens hitem)
  | false =>
    cases item with
    | statement span names => exact Nat.le_of_eq (congrArg Span.start h.span).symm
    | _ => cases hitem

/-- The reading of a declaration that starts at `start` stands behind its keyword, and where `inner`
starts or later. -/
structure Reading.Within (script : List Char) (start inner : Nat) (s : Reading) : Prop where
  sound : s.Sound script
  cutsStart : Cuts script start
  last : start < s.lastStop
  opens : start < inner
  cutsInner : Cuts script inner
  le : inner ≤ s.token.start

/-- Behind the keyword, a reader gives a declaration that ends where the reading stops. -/
def Covers (start inner : Nat) (p : Reader Item) : Prop :=
  ∀ script s item t, s.Within script start inner → p s = .ok item t →
    item.Placed script start t.lastStop

section Covers

variable {α : Type} {script : List Char} {s t : Reading} {p : Reader α} {n inner : Nat} {item : Item}

theorem covers_bind {f : α → Reader Item} (hp : Takes p) (hf : ∀ a, Covers n inner (f a)) :
    Covers n inner (p >>= f) := by
  intro script s item t hs h
  obtain ⟨a, u, hfirst, hrest⟩ := bind_eq_ok h
  obtain ⟨hu, hafter⟩ := hp.sound hs.sound hfirst
  exact hf a script u item t
    { hs with
      sound := hu, last := Nat.lt_of_lt_of_le hs.last hafter.lastStop
      le := Nat.le_trans hs.le hafter.start } hrest

theorem covers_ite_bind {c : Prop} [Decidable c] {p : Reader Unit} {f : Unit → Reader Item}
    (hp : Takes p) (hf : Covers n inner (f ())) :
    Covers n inner (if c then p >>= f else f ()) := by
  split
  · exact covers_bind hp fun _ => hf
  · exact hf

theorem covers_unexpected : Covers n inner Reader.unexpected := by
  intro script s item t hs h
  cases h

/-- The reading goes on from the current token. -/
theorem covers_start_bind {f : Nat → Reader Item} (hf : ∀ inner, Covers n inner (f inner)) :
    Covers n inner (Reader.start >>= f) := by
  intro script s item t hs h
  exact hf s.token.start script s item t
    { hs with
      opens := Nat.lt_of_lt_of_le hs.opens hs.le
      cutsInner := hs.sound.cuts_start, le := Nat.le_refl _ } h

/-- A declaration of which all may be replaced ends where the reading stops. -/
theorem covers_spanFrom {f : Span → Item} (hspan : ∀ span, (f span).span = span)
    (hhead : ∀ span, (f span).headStop = span.stop) :
    Covers n inner (Grammar.spanFrom n >>= fun span => pure (f span)) := by
  intro script s item t hs h
  cases h
  exact {
    span := hspan _
    cutsStart := hs.cutsStart
    cutsStop := hs.sound.cuts_lastStop
    opens := fun _ => by rw [hhead]; exact hs.last
    closes := by rw [hhead]
    cutsHead := by rw [hhead]; exact hs.sound.cuts_lastStop }

/-- What follows the keywords of a declaration is moved over. -/
theorem covers_inner (hp : Takes p) (hmoves : Moves p) {f : α → Span → Item}
    (hspan : ∀ a span, (f a span).span = span) (hhead : ∀ a span, (f a span).headStop = inner) :
    Covers n inner (do
      let a ← p
      return f a (← Grammar.spanFrom n)) := by
  intro script s item t hs h
  obtain ⟨a, u, hfirst, h⟩ := bind_eq_ok h
  obtain ⟨hu, hafter⟩ := hp.sound hs.sound hfirst
  cases h
  exact {
    span := hspan _ _
    cutsStart := hs.cutsStart
    cutsStop := hu.cuts_lastStop
    opens := fun _ => by rw [hhead]; exact hs.opens
    closes := by
      rw [hhead]
      exact Nat.le_trans hs.le (hmoves script s a t hs.sound hfirst)
    cutsHead := by rw [hhead]; exact hs.cutsInner }

/-- A declaration that starts with a word is read behind where it starts. -/
theorem placed_of_keyword {k : Nat → Reader Item} (hk : ∀ n inner, Covers n inner (k n))
    (hs : s.Sound script) (hword : s.token.start < s.token.stop)
    (h : (Reader.start >>= fun n => Reader.bump >>= fun _ => k n) s = .ok item t) :
    item.Placed script s.token.start t.lastStop := by
  obtain ⟨n, s₁, hstart, h⟩ := bind_eq_ok h
  cases hstart
  obtain ⟨_, u, hbump, h⟩ := bind_eq_ok h
  obtain ⟨hu, -⟩ := Reader.takes_bump.sound hs hbump
  have hlast : s.token.start < u.lastStop := by
    cases hbump
    exact hword
  exact hk _ u.token.start script u item t
    { sound := hu, cutsStart := hs.cuts_start, last := hlast
      opens := Nat.lt_of_lt_of_le hlast hu.start
      cutsInner := hu.cuts_start, le := Nat.le_refl _ } h

end Covers

namespace Grammar

open Reader

section Items

variable {g : Grammar} (hg : TakesParts g) {script : List Char} {s t : Reading} {item : Item}

include hg

theorem placed_importItem (hs : s.Sound script) (hword : s.token.start < s.token.stop)
    (h : g.importItem s = .ok item t) : item.Placed script s.token.start t.lastStop := by
  refine placed_of_keyword (fun n inner => covers_bind takes_token fun t => ?_) hs hword h
  have hclause (first : List ImportBinding) (p : Reader (List ImportBinding)) (hp : Takes p) :
      Covers n inner (do
        let bindings ← p
        let source ← g.fromClause
        return .importing (← spanFrom n) (first ++ bindings) source) :=
    covers_bind hp fun bindings => covers_bind (takes_fromClause hg) fun source =>
      covers_spanFrom (fun _ => rfl) fun _ => rfl
  split
  · refine covers_bind takes_sourceString fun source => ?_
    refine covers_bind (takes_importAttributes hg) fun _ => ?_
    exact covers_bind takes_expectSemicolon fun _ => covers_spanFrom (fun _ => rfl) fun _ => rfl
  · have hlist (isName : Bool) (first : List ImportBinding) : Covers n inner (do
        let bindings ← if isName && (← isWord "from") then pure []
          else
            if isName then expectSign ","
            g.importClause
        let source ← g.fromClause
        return .importing (← spanFrom n) (first ++ bindings) source) := by
      refine covers_bind (takes_isWord _) fun named => ?_
      dsimp only
      split
      · exact hclause first _ (takes_pure _)
      · split
        · exact covers_bind (takes_expectSign _) fun _ => hclause first _ (takes_importClause g)
        · exact hclause first _ (takes_importClause g)
    refine covers_bind takes_phaseWordNext fun phase => covers_ite_bind takes_bump ?_
    refine covers_bind takes_token fun next => ?_
    cases (wordOf next).isSome with
    | true =>
      refine covers_bind takes_bindingName fun name => covers_bind (takes_pure _) fun first => ?_
      exact hlist true first
    | false => exact covers_bind (takes_pure _) fun first => hlist false first

theorem covers_exportDefaultItem (hassignment : Moves g.assignment) (n inner : Nat) :
    Covers n inner (g.exportDefaultItem n) := by
  refine covers_start_bind fun inner => covers_bind (takes_isWord _) fun isClass => ?_
  have hdeclared {p : Reader (Option Name)} (hp : Takes p) (hmoves : Moves p) :
      Covers n inner (do
        let name ← p
        return .exportDefault (← spanFrom n) inner name) :=
    covers_inner hp hmoves (fun _ _ => rfl) fun _ _ => rfl
  split
  · exact hdeclared (takes_classDeclaration hg false) (moves_classDeclaration hg false)
  refine covers_bind (takes_isWord _) fun isFunction => ?_
  split
  · exact hdeclared (takes_functionDeclaration hg false false)
      (moves_functionDeclaration hg false false)
  refine covers_bind takes_asyncFunctionNext fun isAsync => ?_
  split
  · refine covers_bind takes_bump fun _ => ?_
    exact hdeclared (takes_functionDeclaration hg false true)
      (moves_functionDeclaration hg false true)
  · have hvalue : Covers n inner (do
        (do
          g.assignedValue
          expectSemicolon)
        return .exportValue (← spanFrom n) inner) :=
      covers_inner (takes_bind (takes_assignedValue hg) fun _ => takes_expectSemicolon)
        (moves_bind_left (takes_assignedValue hg) (moves_assignedValue hg hassignment)
          fun _ => takes_expectSemicolon)
        (f := fun _ span => .exportValue span inner) (fun _ _ => rfl) fun _ _ => rfl
    simpa only [bind_assoc] using hvalue

theorem covers_exportStarItem (n inner : Nat) : Covers n inner (g.exportStarItem n) := by
  refine covers_bind takes_bump fun _ => covers_bind (takes_eatWord _) fun named => ?_
  split
  · refine covers_bind takes_clauseName fun name => ?_
    exact covers_bind (takes_fromClause hg) fun source =>
      covers_spanFrom (fun _ => rfl) fun _ => rfl
  · refine covers_bind (takes_fromClause hg) fun source => ?_
    exact covers_spanFrom (fun _ => rfl) fun _ => rfl

theorem covers_exportClauseItem (n inner : Nat) : Covers n inner (g.exportClauseItem n) := by
  refine covers_bind (takes_expectSign _) fun _ =>
    covers_bind (takes_commaList _ _ takes_exportName) fun names =>
      covers_bind (takes_expectSign _) fun _ => covers_bind (takes_isWord _) fun listed => ?_
  split
  · refine covers_bind (takes_fromClause hg) fun source => ?_
    exact covers_spanFrom (fun _ => rfl) fun _ => rfl
  · refine covers_bind (by grind) fun _ => covers_bind takes_eatSemicolon fun _ => ?_
    exact covers_spanFrom (fun _ => rfl) fun _ => rfl

theorem placed_exportItem (hassignment : Moves g.assignment) (hs : s.Sound script)
    (hword : s.token.start < s.token.stop) (h : g.exportItem s = .ok item t) :
    item.Placed script s.token.start t.lastStop := by
  refine placed_of_keyword (fun n inner => covers_start_bind fun inner => ?_) hs hword h
  have hdeclared {p : Reader (List Name)} (hp : Takes p) (hmoves : Moves p) :
      Covers n inner (do
        let names ← p
        return .exportDeclaration (← spanFrom n) inner names) :=
    covers_inner hp hmoves (fun _ _ => rfl) fun _ _ => rfl
  have hclass := moves_map (f := (·.toList)) (takes_classDeclaration hg true)
    (moves_classDeclaration hg true)
  have hfunction (async : Bool) := moves_map (f := (·.toList))
    (takes_functionDeclaration hg true async) (moves_functionDeclaration hg true async)
  refine covers_bind takes_token fun t => ?_
  split
  · exact covers_bind takes_bump fun _ => covers_exportDefaultItem hg hassignment n inner
  · exact covers_exportStarItem hg n inner
  · exact hdeclared (by grind) hclass
  · exact hdeclared (by grind) (hfunction false)
  · exact hdeclared (takes_variableStatement hg) (moves_variableStatement hg)
  · exact hdeclared (takes_variableStatement hg) (moves_variableStatement hg)
  · refine covers_bind takes_letDeclares fun declares => ?_
    split
    · exact hdeclared (takes_variableStatement hg) (moves_variableStatement hg)
    · exact covers_unexpected
  · refine covers_bind takes_asyncFunctionNext fun isAsync => ?_
    split
    · exact covers_bind takes_bump fun _ => hdeclared (by grind) (hfunction true)
    · exact covers_unexpected
  · exact covers_exportClauseItem hg n inner

theorem placed_statement (hstatement : Moves (g.statement true)) (hs : s.Sound script)
    (h : (do
      let names ← g.statement true
      return .statement (← spanFrom s.token.start) names : Reader Item) s = .ok item t) :
    item.Placed script s.token.start t.lastStop := by
  obtain ⟨names, u, hnames, h⟩ := bind_eq_ok h
  obtain ⟨hu, -⟩ := (hg.statement true).sound hs hnames
  cases h
  exact {
    span := rfl
    cutsStart := hs.cuts_start
    cutsStop := hu.cuts_lastStop
    opens := fun hfalse => by cases hfalse
    closes := hstatement script s names t hs hnames
    cutsHead := hs.cuts_start }

/-- An item covers the script from the current token on. -/
theorem placed_moduleItem (hassignment : Moves g.assignment) (hstatement : Moves (g.statement true))
    (hs : s.Sound script) (h : g.moduleItem s = .ok item t) :
    item.Placed script s.token.start t.lastStop := by
  obtain ⟨n, s₁, hstart, h⟩ := bind_eq_ok h
  cases hstart
  obtain ⟨first, s₁, htoken, h⟩ := bind_eq_ok h
  cases htoken
  generalize hlexeme : s.token.lexeme = lexeme at h
  split at h
  · obtain ⟨next, s₁, hpeek, h⟩ := bind_eq_ok h
    cases hpeek
    split at h
    · exact placed_statement hg hstatement hs h
    · exact placed_importItem hg hs (hs.word hlexeme (by decide)) h
  · exact placed_exportItem hg hassignment hs (hs.word hlexeme (by decide)) h
  · exact placed_statement hg hstatement hs h

end Items

end Grammar

/-! ### Modules -/

/-- Items stand one behind the other, from `n` on. -/
inductive LaidOut (script : List Char) : Nat → List Item → Prop
  | nil (n : Nat) : LaidOut script n []
  | cons {n start stop : Nat} {item : Item} {items : List Item} (le : n ≤ start)
      (placed : item.Placed script start stop) (more : LaidOut script stop items) :
      LaidOut script n (item :: items)

theorem LaidOut.exists_placed {script : List Char} {n : Nat} {items : List Item}
    (h : LaidOut script n items) {item : Item} (hitem : item ∈ items) :
    ∃ start stop, item.Placed script start stop := by
  induction h with
  | nil => cases hitem
  | cons le placed more ih =>
    rcases List.mem_cons.1 hitem with rfl | hitem
    · exact ⟨_, _, placed⟩
    · exact ih hitem

open Reader in
theorem laidOut_moduleItems {g : Grammar} (hg : TakesParts g) (hassignment : Moves g.assignment)
    (hstatement : Moves (g.statement true)) {script : List Char} {s t : Reading}
    (hs : s.Sound script) {items : List Item} (h : g.moduleItems s = .ok items t) :
    LaidOut script s.lastStop items := by
  unfold Grammar.moduleItems at h
  generalize g.fuel = fuel at h
  induction fuel generalizing s items with
  | zero => cases h
  | succ fuel ih =>
    rw [many] at h
    obtain ⟨found, u, hpart, h⟩ := bind_eq_ok h
    obtain ⟨first, s₁, htoken, hpart⟩ := bind_eq_ok hpart
    cases htoken
    split at hpart
    · cases hpart
      cases h
      exact .nil _
    · obtain ⟨item, u, hitem, hpart⟩ := bind_eq_ok hpart
      cases hpart
      obtain ⟨more, v, hmore, h⟩ := bind_eq_ok h
      cases h
      obtain ⟨hu, -⟩ := (Grammar.takes_moduleItem hg).sound hs hitem
      exact .cons hs.start (Grammar.placed_moduleItem hg hassignment hstatement hs hitem)
        (ih hu hmore)

open Cursor in
/-- The line of the interpreter is read over. -/
theorem before_skipInterpreter (cs : List Char) :
    Before ⟨0, cs⟩ ⟨(skipInterpreter cs).1, (skipInterpreter cs).2⟩ := by
  unfold skipInterpreter
  split
  · next r =>
    have hline := List.prefix_iff_eq_append.1 (List.takeWhile_prefix (l := r) (!endsLine ·))
    have hbehind : Before ⟨0 + 2, r⟩ ⟨2 + byteLength (r.takeWhile (!endsLine ·)),
        r.drop (r.takeWhile (!endsLine ·)).length⟩ := ⟨_, hline.symm, rfl⟩
    exact hbehind.over ['#', '!'] rfl
  · exact .refl _

/-- The items of a module stand one behind the other. -/
theorem laidOut_parse {source : String} {items : List Item} (h : parse source = .ok items) :
    LaidOut source.toList 0 items := by
  unfold parse at h
  dsimp only at h
  split at h
  · cases h
  · next hrun =>
    split at h
    · cases h
    · obtain rfl := Except.ok.inj h
      have hparts := takesParts_grammar (source.toList.length + 2) (3 * source.toList.length + 6)
      exact laidOut_moduleItems hparts (Grammar.moves_assignment_grammar _ _)
        (Grammar.moves_statement_grammar _ _ true)
        (sound_readToken true rfl rfl (.refl _) (before_skipInterpreter _)) hrun

end SingleFile.Script
