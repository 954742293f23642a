import SingleFile.Proofs.Assembly.Answers
import SingleFile.Proofs.Assembly.Front

/-!
# What the map of a module says of generated text

A module shows the characters of its fragments, before one of which the coverage comment may have
been put (`Laid.ShownOn`).  If the maps of the fragments sit on their code, each mapping of the module
stands on such a character (`Draft.Sits`), whatever else is laid out.  So lines that show none resolve
to nothing (`Assembly.original?_eq_none_of_placed`).
-/

namespace SingleFile

open Assembly

/-- A line that shows a character of the fragment, with the coverage comment at a spot. -/
def Laid.ShownOn (x : Laid) (spot : Option Nat) (line : Nat) : Prop :=
  ∃ a c b, x.fragment.code.toList = a ++ c :: b ∧
    line = (Position.origin.after (annotate spot (x.front ++ a))).line

instance (x : Laid) (spot : Option Nat) (line : Nat) : Decidable (x.ShownOn spot line) :=
  decidable_of_iff _ exists_split_iff.symm

namespace Draft

/-- Each mapping of a draft stands on a character of one of some fragments, with the coverage comment
at a spot. -/
def Sits (d : Draft) (spot : Option Nat) (xs : List Laid) : Prop :=
  ∀ e ∈ d.entries, ∃ x ∈ xs, ∃ a c b, x.fragment.code.toList = a ++ c :: b ∧
    e.generated = Position.origin.after (annotate spot (x.front ++ a))

variable {d d' : Draft} {spot : Option Nat} {xs : List Laid}

theorem Holds.sits (h : d.Holds xs) (hxs : ∀ x ∈ xs, x.fragment.Placed) : d.Sits none xs := by
  intro e he
  obtain ⟨x, hx, hex⟩ := h.exists_of_mem he
  obtain ⟨a, c, b, hcode, hp⟩ := (hxs x hx).exists_of_mem hex
  exact ⟨x, hx, a, c, b, hcode, hp⟩

theorem Sits.pushLine (h : d.Sits spot xs) (text : String) :
    (Assembly.pushLine d text).Sits spot xs :=
  pushLine_of_push (P := fun d => d.Sits spot xs) (fun _ _ h => h) h text

/-- Mappings move along with the characters that they stand on. -/
theorem Holds.sits_insert {pattern : List Char} (h : d.Holds xs)
    (hinsert : d.insertBeforeLast? pattern coverageComment = some d') :
    ∃ n, d'.StartsWith (some n) d.code ∧
      ((∀ x ∈ xs, x.fragment.Placed) → d'.Sits (some n) xs) := by
  obtain ⟨front, rest, -, hcut, rfl⟩ := insertBeforeLast?_eq_some hinsert
  refine ⟨front.length, ⟨[], ?_, ?_⟩, ?_⟩
  · rintro n ⟨⟩
    rw [List.append_nil, hcut, List.length_append]
    exact Nat.le_add_right _ _
  · rw [List.append_nil, hcut, annotate]
    simp
  · intro hxs e he
    obtain ⟨e₁, he₁, rfl⟩ := List.mem_map.1 he
    obtain ⟨x, hx, a, c, b, hcode, hp⟩ := h.sits hxs e₁ he₁
    obtain ⟨t, ht⟩ := h.code x hx
    have hall : front ++ (pattern ++ rest) = (x.front ++ a) ++ c :: (b ++ t) := by
      rw [← hcut, ← ht, Laid.code, hcode]
      simp
    refine ⟨x, hx, a, c, b, hcode, ?_⟩
    dsimp only
    rw [hp, annotate, shift_annotate hall]

/-- Lines that show no character of a fragment do not answer. -/
theorem Sits.original?_eq_none {file : Option String} (h : d.Sits spot xs) {p : Position}
    (hp : ∀ x ∈ xs, ¬ x.ShownOn spot p.line) : (d.finish file).2.original? p = none := by
  rw [original?_finish]
  apply resolve_eq_none
  intro e he hline
  obtain ⟨x, hx, a, c, b, hcode, hgenerated⟩ := h e (mem_stableSort.1 he)
  exact hp x hx ⟨a, c, b, hcode, by rw [← hline, hgenerated]⟩

end Draft

namespace Assembly

theorem startsWith_self (d : Draft) : d.StartsWith none d.code :=
  ⟨[], by simp, by rw [annotate, List.append_nil]⟩

/-- A module shows its fragments, and its mappings stand on their characters if their maps sit on
their code. -/
theorem exists_spot_laid (a : Assembly) : ∃ spot front, a.draft.StartsWith spot front ∧
    (∀ x ∈ a.laid, x.code <+: front) ∧
    ((∀ x ∈ a.laid, x.fragment.Placed) → a.draft.Sits spot a.laid) := by
  have halias := holds_pushLine (holds_body a) a.aliasLine
  obtain ⟨spot, front, hstarts, hfront, hsits⟩ : ∃ spot front,
      a.templateDraft.StartsWith spot front ∧ (∀ x ∈ a.laid, x.code <+: front) ∧
      ((∀ x ∈ a.laid, x.fragment.Placed) → a.templateDraft.Sits spot a.laid) := by
    unfold templateDraft laid
    cases a.template with
    | none =>
      rw [Option.map_none, Option.toList_none, List.append_nil]
      exact ⟨none, _, startsWith_self _, halias.code, halias.sits⟩
    | some f =>
      have hholds := Draft.holds_pushFragment (holds_startLine halias) (startsLine_startLine _) f
      simp only [pushTemplate]
      cases hinsert : (pushFragment (pushLine a.body a.aliasLine) f).insertBeforeLast? renderHelper
          coverageComment with
      | none =>
        exact ⟨none, _, Draft.startsWith_push (startsWith_self _) _, hholds.code, hholds.sits⟩
      | some d =>
        obtain ⟨n, hstarts, hsits⟩ := hholds.sits_insert hinsert
        exact ⟨some n, _, Draft.startsWith_push hstarts _, hholds.code, hsits⟩
  refine ⟨spot, front, ?_, hfront, fun hplaced => ?_⟩
  · exact draft_of_lines (P := fun d => d.StartsWith spot front) a hstarts
      fun _ text h => Draft.startsWith_pushLine h text
  · exact draft_of_lines (P := fun d => d.Sits spot a.laid) a (hsits hplaced)
      fun _ text h => h.pushLine text

/-- **Generated text is attributed to nothing**: if the maps of the fragments sit on their code, the
module's map answers only on lines that show a character of a fragment. -/
theorem original?_eq_none_of_placed (a : Assembly) : ∃ spot whole,
    a.assemble.1.code.toList = annotate spot whole ∧ (∀ x ∈ a.laid, x.code <+: whole) ∧
    ((∀ x ∈ a.laid, x.fragment.Placed) → ∀ p : Position,
      (∀ x ∈ a.laid, ¬ x.ShownOn spot p.line) → a.assemble.1.map.original? p = none) := by
  obtain ⟨spot, front, ⟨tail, -, hcode⟩, hfront, hsits⟩ := exists_spot_laid a
  refine ⟨spot, front ++ tail, ?_, ?_, ?_⟩
  · rw [code_assemble, hcode]
  · intro x hx
    exact (hfront x hx).trans (List.prefix_append front tail)
  · intro hplaced p hp
    rw [map_assemble]
    exact (hsits hplaced).original?_eq_none hp

end Assembly

end SingleFile
