import SingleFile.Proofs.Script.DefaultExport
import SingleFile.Proofs.Script.Items

/-!
# The local names of imports

A reader `Gives` a property if all that it reads from a script has it.  What an import binds in the
module is an identifier of the script (**`importsIdentifiers_of_parse`**): where a name of the other
module is a string, it is bound under a word.
-/

namespace SingleFile.Script

open Reading Reader

/-- The name under which an import is bound in the module. -/
def ImportBinding.localName : ImportBinding → Name
  | .default n | .whole n | .named _ n => n

def BindIdentifiers (script : List Char) (bindings : List ImportBinding) : Prop :=
  ∀ b ∈ bindings, Identifier (textAt script b.localName.span)

/-- What a reader gives, where it reads from a token of a script, has a property. -/
def Gives {α : Type} (script : List Char) (p : Reader α) (Q : α → Prop) : Prop :=
  ∀ s a t, s.Sound script → s.OnToken script → p s = .ok a t → Q a

section Gives

variable {α β : Type} {script : List Char} {p : Reader α} {P : α → Prop} {Q : β → Prop}

theorem gives_pure {a : α} (h : P a) : Gives script (pure a) P := by
  intro s b t hs hon hread
  cases hread
  exact h

theorem gives_throw (offset : Nat) : Gives script (throw offset : Reader α) P := by
  intro s a t hs hon hread
  cases hread

/-- The second of two readers knows what the first one gives. -/
theorem gives_bind {f : α → Reader β} (htakes : Takes p) (hp : Gives script p P)
    (hf : ∀ a, P a → Gives script (f a) Q) : Gives script (p >>= f) Q := by
  intro s b t hs hon hread
  obtain ⟨a, u, hfirst, hread⟩ := bind_eq_ok hread
  have hsteps := htakes s
  rw [hfirst] at hsteps
  exact hf a (hp s a u hs hon hfirst) u b t (hsteps.sound hs).1 (hsteps.onToken hs hon) hread

theorem gives_bind_right {f : α → Reader β} (htakes : Takes p) (hf : ∀ a, Gives script (f a) Q) :
    Gives script (p >>= f) Q :=
  gives_bind htakes (P := fun _ => True) (fun _ _ _ _ _ _ => trivial) fun a _ => hf a

theorem gives_ite {c : Prop} [Decidable c] {q : Reader α} (hp : Gives script p P)
    (hq : Gives script q P) : Gives script (if c then p else q) P := by
  split
  · exact hp
  · exact hq

theorem gives_unexpected : Gives script (Reader.unexpected : Reader α) P := by
  intro s a t hs hon hread
  cases hread

theorem gives_commaList (close : String) (fuel : Nat) (htakes : Takes p) (hp : Gives script p P) :
    Gives script (Reader.commaList close p fuel) fun as => ∀ a ∈ as, P a := by
  induction fuel with
  | zero => exact gives_unexpected
  | succ fuel ih =>
    refine gives_bind_right (takes_isSign close) fun closes => gives_ite (gives_pure (by simp)) ?_
    refine gives_bind htakes hp fun a ha => gives_bind_right (takes_isSign close) fun ends => ?_
    refine gives_ite (gives_pure (by simpa using ha)) ?_
    refine gives_bind_right (takes_expectSign ",") fun _ => ?_
    refine gives_bind (takes_commaList close fuel htakes) ih fun more hmore => gives_pure ?_
    exact List.forall_mem_cons.2 ⟨ha, hmore⟩

theorem gives_many {p : Reader (Option α)} (fuel : Nat) (htakes : Takes p)
    (hp : Gives script p fun found => ∀ a ∈ found, P a) :
    Gives script (many p fuel) fun as => ∀ a ∈ as, P a := by
  induction fuel with
  | zero => exact gives_unexpected
  | succ fuel ih =>
    refine gives_bind htakes hp fun found hfound => ?_
    cases found with
    | none => exact gives_pure fun a ha => by cases ha
    | some a =>
      refine gives_bind (takes_many fuel htakes) ih fun more hmore => gives_pure ?_
      exact List.forall_mem_cons.2 ⟨hfound a rfl, hmore⟩

end Gives

/-! ### Imports -/

section Imports

open Grammar

variable {script : List Char}

/-- A word at which the reading stands is an identifier. -/
theorem Reading.OnToken.identifier {s : Reading} (hon : s.OnToken script) {n : Name}
    (hword : s.place.Word n) : Identifier (textAt script n.span) := by
  refine identifier_of_word (hon fun offset hbroken => ?_) hword
  obtain ⟨⟨e, hlexeme⟩, -⟩ := hword
  cases hbroken.symm.trans hlexeme

theorem gives_bindingName :
    Gives script bindingName fun n => Identifier (textAt script n.span) :=
  fun _ _ _ _ hon hread => hon.identifier (bindingName_eq_ok hread).1

theorem gives_clauseName : Gives script clauseName fun name =>
    name.isString = false → Identifier (textAt script name.span) := by
  intro s name t hs hon hread hword
  replace hread := token_bind_eq_ok hread
  generalize hlexeme : s.token.lexeme = lexeme at hread
  cases lexeme with
  | string raw =>
    cases hread
    cases hword
  | _ =>
    obtain ⟨n, s₁, hname, hread⟩ := bind_eq_ok hread
    cases hread
    exact hon.identifier (anyName_eq_ok hname).1

theorem gives_importName : Gives script Grammar.importName fun b =>
    Identifier (textAt script b.localName.span) := by
  unfold Grammar.importName
  refine gives_bind takes_clauseName gives_clauseName fun name hname => ?_
  refine gives_bind_right (takes_eatWord "as") fun renamed => gives_ite ?_ ?_
  · exact gives_bind takes_bindingName gives_bindingName fun n hn => gives_pure hn
  · split
    · exact gives_bind (takes_throw _) (P := fun _ => False) (gives_throw _) fun _ h => h.elim
    · next hword =>
      rw [Bool.or_eq_true, not_or] at hword
      exact gives_pure (hname (Bool.eq_false_iff.2 hword.1))

theorem gives_importClause (g : Grammar) :
    Gives script g.importClause (BindIdentifiers script) := by
  unfold importClause
  refine gives_bind_right (takes_eatSign "*") fun whole => gives_ite ?_ ?_
  · refine gives_bind_right (takes_expectWord "as") fun _ => ?_
    refine gives_bind takes_bindingName gives_bindingName fun n hn => gives_pure ?_
    exact List.forall_mem_singleton.2 hn
  · refine gives_bind_right (takes_expectSign _) fun _ => ?_
    refine gives_bind (takes_commaList _ _ takes_importName)
      (gives_commaList _ _ takes_importName gives_importName) fun bindings hbindings => ?_
    exact gives_bind_right (takes_expectSign _) fun _ => gives_pure hbindings

/-- All that an item imports has the name of an identifier in the module. -/
def Item.ImportsIdentifiers (script : List Char) (item : Item) : Prop :=
  ∀ span bindings source, item = .importing span bindings source →
    BindIdentifiers script bindings

section Importing

variable {g : Grammar} (hg : TakesParts g) (n : Nat)

include hg

/-- An import of a module, of `first` and what else is read. -/
theorem gives_importing {first : List ImportBinding} {p : Reader (List ImportBinding)} (hp : Takes p)
    (hfirst : BindIdentifiers script first) (hgives : Gives script p (BindIdentifiers script)) :
    Gives script (do
      let bindings ← p
      let source ← g.fromClause
      return .importing (← spanFrom n) (first ++ bindings) source)
      (Item.ImportsIdentifiers script) := by
  refine gives_bind hp hgives fun bindings hbindings => ?_
  refine gives_bind_right (takes_fromClause hg) fun source => ?_
  refine gives_bind_right (takes_spanFrom n) fun span => gives_pure ?_
  rintro _ _ _ ⟨⟩ b hb
  exact (List.mem_append.1 hb).elim (hfirst b) (hbindings b)

/-- What follows the name of an import, or stands in its place. -/
theorem gives_importRest (isName : Bool) {first : List ImportBinding}
    (hfirst : BindIdentifiers script first) :
    Gives script (do
      let bindings ← if isName && (← isWord "from") then pure []
        else
          if isName then expectSign ","
          g.importClause
      let source ← g.fromClause
      return .importing (← spanFrom n) (first ++ bindings) source)
      (Item.ImportsIdentifiers script) := by
  refine gives_bind_right (takes_isWord _) fun named => ?_
  dsimp only
  split
  · exact gives_importing hg n (takes_pure _) hfirst (gives_pure fun b hb => by cases hb)
  · have hclause := gives_importing hg n (takes_importClause g) hfirst (gives_importClause g)
    exact gives_ite (gives_bind_right (takes_expectSign _) fun _ => hclause) hclause

/-- The name of an import, and what follows it. -/
theorem gives_importNames :
    Gives script (do
      let isName := (wordOf (← token)).isSome
      let first ← if isName then pure [ImportBinding.default (← bindingName)] else pure []
      let bindings ← if isName && (← isWord "from") then pure []
        else
          if isName then expectSign ","
          g.importClause
      let source ← g.fromClause
      return .importing (← spanFrom n) (first ++ bindings) source)
      (Item.ImportsIdentifiers script) := by
  refine gives_bind_right takes_token fun next => ?_
  cases (wordOf next).isSome with
  | true =>
    refine gives_bind takes_bindingName gives_bindingName fun name hname => ?_
    have hfirst : BindIdentifiers script [.default name] := List.forall_mem_singleton.2 hname
    exact gives_bind (takes_pure _) (gives_pure hfirst) fun first => gives_importRest hg n true
  | false =>
    have hfirst : BindIdentifiers script [] := fun b hb => by cases hb
    exact gives_bind (takes_pure _) (gives_pure hfirst) fun first => gives_importRest hg n false

theorem gives_importItem : Gives script g.importItem (Item.ImportsIdentifiers script) := by
  unfold importItem
  refine gives_bind_right takes_start fun n => gives_bind_right takes_bump fun _ => ?_
  refine gives_bind_right takes_token fun t => ?_
  split
  · -- only a string: nothing is bound
    refine gives_bind_right takes_sourceString fun source => ?_
    refine gives_bind_right (takes_importAttributes hg) fun _ => ?_
    refine gives_bind_right takes_expectSemicolon fun _ => ?_
    refine gives_bind_right (takes_spanFrom n) fun span => gives_pure ?_
    rintro _ _ _ ⟨⟩ b hb
    cases hb
  · refine gives_bind_right takes_phaseWordNext fun phase => gives_ite ?_ (gives_importNames hg n)
    exact gives_bind_right takes_bump fun _ => gives_importNames hg n

end Importing

end Imports

/-! ### Modules -/

section Modules

open Grammar

variable {script : List Char} (fuel depth : Nat)

theorem gives_moduleItem :
    Gives script (grammar fuel depth).moduleItem (Item.ImportsIdentifiers script) := by
  have hparts := takesParts_grammar fuel depth
  have hstatement (n : Nat) : Gives script (do
      let names ← (grammar fuel depth).statement true
      return .statement (← spanFrom n) names) (Item.ImportsIdentifiers script) := by
    refine gives_bind_right (hparts.statement true) fun names => ?_
    refine gives_bind_right (takes_spanFrom n) fun span => gives_pure ?_
    rintro _ _ _ ⟨⟩
  unfold moduleItem
  refine gives_bind_right takes_start fun n => gives_bind_right takes_token fun t => ?_
  split
  · refine gives_bind_right takes_peek fun next => ?_
    exact gives_ite (hstatement n) (gives_importItem hparts)
  · intro s item t hs hon hread _ _ _ hitem
    have hstarts := startsAt_exportItem hread
    rw [hitem] at hstarts
    cases hstarts
  · exact hstatement n

theorem gives_moduleItems : Gives script (grammar fuel depth).moduleItems fun items =>
    ∀ item ∈ items, item.ImportsIdentifiers script := by
  have hitem := takes_moduleItem (takesParts_grammar fuel depth)
  refine gives_many _ ?_ ?_
  · exact takes_bind takes_token fun t =>
      takes_ite (takes_pure _) (takes_bind hitem fun item => takes_pure _)
  · refine gives_bind_right takes_token fun t => gives_ite (gives_pure fun item h => by cases h) ?_
    refine gives_bind hitem (gives_moduleItem fuel depth) fun item h => gives_pure fun other hother => ?_
    exact Option.some.inj hother ▸ h

/-- **Imports are bound under identifiers**: what a module imports by a string has another name in
it. -/
theorem importsIdentifiers_of_parse {source : String} {items : List Item}
    (h : parse source = .ok items) : ∀ item ∈ items, item.ImportsIdentifiers source.toList := by
  unfold parse at h
  dsimp only at h
  split at h
  · cases h
  · next hrun =>
    split at h
    · cases h
    · obtain rfl := Except.ok.inj h
      have hfirst := before_skipInterpreter source.toList
      refine gives_moduleItems _ _ _ _ _ ?_ ?_ hrun
      · exact sound_readToken true rfl rfl (.refl _) hfirst
      · exact fun _ => Place.standsIn_readToken hfirst true _

end Modules

end SingleFile.Script
