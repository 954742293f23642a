import SingleFile.Proofs.Assembly.Relocate
import SingleFile.Proofs.Component.BlockMap
import SingleFile.Proofs.Component.Insertion
import SingleFile.Proofs.Transform.Paces

/-!
# Blocks that take no part in a module

A style without a module, or a block that no transformer takes, may be inserted into a component
file anywhere between its blocks.  The module keeps its code, and where only the script has a map,
this leads to the lines where the script then stands (`SingleFileTransformer.run_insert`).
-/

namespace SingleFile

open Routine

variable {κ : Type}

/-- What a transformer is asked, wherever the blocks stand. -/
def HookInput.unplaced : HookInput → HookInput
  | .customBlocks blocks options file settings =>
    .customBlocks (blocks.map CustomBlock.unplaced) options file settings
  | .script source file settings => .script source file settings
  | .style text => .style text

/-- Whether two inputs are the same but for where blocks stand. -/
def HookInput.Alike (i i' : HookInput) : Prop := i.unplaced = i'.unplaced

theorem HookInput.Alike.apply_eq {α : Type} {f : HookInput → α} (hf : ∀ i, f i.unplaced = f i)
    {i i' : HookInput} (h : i.Alike i') : f i = f i' := by
  rw [← hf i, show i.unplaced = i'.unplaced from h, hf]

/-! ### Custom blocks -/

namespace Stage

theorem filter_addToKind (heard : String → Bool) (block : CustomBlock)
    (groups : List (String × List CustomBlock)) :
    (addToKind block groups).filter (fun g => heard g.1) =
      if heard block.kind then addToKind block (groups.filter fun g => heard g.1)
      else groups.filter fun g => heard g.1 := by
  induction groups with
  | nil => by_cases h : heard block.kind <;> simp [addToKind, h]
  | cons g groups ih =>
    obtain ⟨kind, blocks⟩ := g
    by_cases hkind : kind = block.kind
    · subst hkind
      by_cases h : heard block.kind <;> simp [addToKind, h]
    · rw [addToKind, if_neg hkind]
      simp only [List.filter_cons, ih]
      by_cases h : heard kind = true
      · simp only [h, if_true]
        split
        · rw [addToKind, if_neg hkind]
        · rfl
      · simp only [h, Bool.false_eq_true, if_false]

/-- The groups of some kinds hold the blocks of these kinds. -/
theorem filter_byKind (heard : String → Bool) (blocks : List CustomBlock) :
    (byKind blocks).filter (fun g => heard g.1) = byKind (blocks.filter fun b => heard b.kind) := by
  have hfold (groups : List (String × List CustomBlock)) :
      (blocks.foldl (fun groups b => addToKind b groups) groups).filter (fun g => heard g.1) =
        (blocks.filter fun b => heard b.kind).foldl (fun groups b => addToKind b groups)
          (groups.filter fun g => heard g.1) := by
    induction blocks generalizing groups with
    | nil => rfl
    | cons b blocks ih =>
      rw [List.foldl_cons, ih, filter_addToKind, List.filter_cons]
      by_cases h : heard b.kind = true
      · simp only [h, if_true, List.foldl_cons]
      · simp only [h, Bool.false_eq_true, if_false]
  exact hfold []

def unplacedGroup (g : String × List CustomBlock) : String × List CustomBlock :=
  (g.1, g.2.map CustomBlock.unplaced)

theorem map_unplaced_addToKind (block : CustomBlock) (groups : List (String × List CustomBlock)) :
    (addToKind block groups).map unplacedGroup =
      addToKind block.unplaced (groups.map unplacedGroup) := by
  induction groups with
  | nil => rfl
  | cons g groups ih =>
    obtain ⟨kind, blocks⟩ := g
    show (if kind = block.kind then _ else _ : List _).map unplacedGroup =
      if kind = block.kind then _ else _
    split
    · simp [unplacedGroup]
    · rw [List.map_cons, ih]
      rfl

theorem map_unplaced_byKind (blocks : List CustomBlock) :
    (byKind blocks).map unplacedGroup = byKind (blocks.map CustomBlock.unplaced) := by
  have hfold (groups : List (String × List CustomBlock)) :
      (blocks.foldl (fun groups b => addToKind b groups) groups).map unplacedGroup =
        (blocks.map CustomBlock.unplaced).foldl (fun groups b => addToKind b groups)
          (groups.map unplacedGroup) := by
    induction blocks generalizing groups with
    | nil => rfl
    | cons b blocks ih => rw [List.foldl_cons, ih, map_unplaced_addToKind, List.map_cons,
        List.foldl_cons]
  exact hfold []

def groupsCode (cx : Context κ) (groups : List (String × List CustomBlock)) :
    Action κ (Option String) := do
  let codes ← Routine.inTurn (groups.map fun g => kindCode cx g.1 g.2)
  match codes.filterMap id with
  | [] => return none
  | made => return some ("\n".intercalate made)

theorem customCode_eq_groupsCode (cx : Context κ) (blocks : List CustomBlock) :
    customCode cx blocks = groupsCode cx (byKind blocks) := rfl

variable {alike : HookInput → HookInput → Prop} {cx : Context κ} {p : Pace}

/-- Whether a transformer takes a kind of blocks. -/
def hears (cx : Context κ) (kind : String) : Bool := (cx.registry.find? kind).isSome

theorem agree_groupsCode_of_codes {groups groups' : List (String × List CustomBlock)}
    (h : Agree (fun codes codes' => codes.filterMap id = codes'.filterMap id)
      (Routine.inTurn (groups.map fun g => kindCode (cx.paced p) g.1 g.2))
      (Routine.inTurn (groups'.map fun g => kindCode (cx.paced p) g.1 g.2))) :
    Agree Eq (groupsCode (cx.paced p) groups) (groupsCode (cx.paced p) groups') := by
  refine agree_bind h ?_
  rintro codes codes' hcodes -
  show Agree Eq (match codes.filterMap id with | [] => _ | made => _) _
  rw [hcodes]
  split <;> exact agree_done rfl

/-- Groups that no transformer takes add no code. -/
theorem agree_groupsCode_filter (h : cx.SteadyAt alike p p)
    (groups : List (String × List CustomBlock)) :
    Agree Eq (groupsCode (cx.paced p) groups)
      (groupsCode (cx.paced p) (groups.filter fun g => hears cx g.1)) := by
  apply agree_groupsCode_of_codes
  induction groups with
  | nil => exact agree_done rfl
  | cons g groups ih =>
    rw [List.filter_cons]
    by_cases hheard : hears cx g.1 = true
    · simp only [hheard, if_true]
      refine agree_bind (agree_kindCode h g.1 (.inl rfl)) ?_
      rintro code _ rfl -
      refine agree_bind ih ?_
      rintro codes codes' hcodes -
      refine agree_done ?_
      rw [List.filterMap_cons, List.filterMap_cons, hcodes]
    · simp only [hheard, Bool.false_eq_true, if_false]
      have hnone : (kindCode (cx.paced p) g.1 g.2).Gives (.ok none) := by
        unfold kindCode
        rw [Context.paced_registry, Option.not_isSome_iff_eq_none.1 hheard]
        exact Gives.bind_ok (gives_log _) (gives_done _)
      rcases ih with ⟨codes, codes', hcodes, hp, hq⟩ | ⟨e, hp, hq⟩
      · refine .inl ⟨none :: codes, codes', hcodes, ?_, hq⟩
        exact Gives.bind_ok hnone (Gives.bind_ok hp (gives_done _))
      · exact .inr ⟨e, Gives.bind_ok hnone (Gives.bind_error hp), hq⟩

/-- Groups that are the same but for where their blocks stand give the same code. -/
theorem agree_groupsCode_unplaced (h : cx.SteadyAt HookInput.Alike p p)
    {groups groups' : List (String × List CustomBlock)}
    (hgroups : groups.map unplacedGroup = groups'.map unplacedGroup) :
    Agree Eq (groupsCode (cx.paced p) groups) (groupsCode (cx.paced p) groups') := by
  have hrel : List.Forall₂ (fun g g' => unplacedGroup g = unplacedGroup g') groups groups' := by
    rw [← List.forall₂_eq_eq_eq, List.forall₂_map_left_iff, List.forall₂_map_right_iff] at hgroups
    exact hgroups
  have hcodes : List.Forall₂ (Agree Eq)
      (groups.map fun g => kindCode (cx.paced p) g.1 g.2)
      (groups'.map fun g => kindCode (cx.paced p) g.1 g.2) := by
    rw [List.forall₂_map_left_iff, List.forall₂_map_right_iff]
    refine hrel.imp fun g g' hg => ?_
    obtain ⟨hkind, hblocks⟩ := Prod.mk.inj hg
    rw [← hkind]
    refine agree_kindCode h g.1 (.inr ?_)
    show HookInput.customBlocks _ _ _ _ = HookInput.customBlocks _ _ _ _
    rw [hblocks]
  apply agree_groupsCode_of_codes
  exact (agree_inTurn hcodes).mono fun codes codes' hcodes => congrArg (List.filterMap id) hcodes

/-- Custom blocks that are heard alike give the same code. -/
theorem agree_customCode_unplaced [Nonempty (Session κ)] (h : cx.SteadyAt HookInput.Alike p p)
    {blocks blocks' : List CustomBlock}
    (hblocks : (blocks.filter fun b => hears cx b.kind).map CustomBlock.unplaced =
      (blocks'.filter fun b => hears cx b.kind).map CustomBlock.unplaced) :
    Agree Eq (customCode (cx.paced p) blocks) (customCode (cx.paced p) blocks') := by
  have hgroups : ((byKind blocks).filter fun g => hears cx g.1).map unplacedGroup =
      ((byKind blocks').filter fun g => hears cx g.1).map unplacedGroup := by
    rw [filter_byKind, filter_byKind, map_unplaced_byKind, map_unplaced_byKind, hblocks]
  rw [customCode_eq_groupsCode, customCode_eq_groupsCode]
  have hleft := agree_groupsCode_filter h (byKind blocks)
  have hright := agree_groupsCode_filter h (byKind blocks')
  exact (hleft.trans (agree_groupsCode_unplaced h hgroups)).trans hright.flip

/-! ### Other stages -/

theorem render_unplaced (cx : Context κ) (template : TemplateBlock) (bindings : Option Json) :
    render cx template.unplaced bindings = render cx template bindings := rfl

/-- Styles that are the same but for their places are processed alike. -/
theorem styleResults_congr (cx : Context κ) {styles styles' : List StyleBlock}
    (h : styles.map StyleBlock.unplaced = styles'.map StyleBlock.unplaced) :
    styleResults cx styles = styleResults cx styles' := by
  have hunplaced (styles : List StyleBlock) :
      styles.map (styleResult cx) = (styles.map StyleBlock.unplaced).map (styleResult cx) := by
    rw [List.map_map]
    rfl
  unfold styleResults
  rw [hunplaced styles, hunplaced styles', h]

end Stage

/-! ### Scripts -/

section Script

variable {file source source' : String} {start k : Nat} {cs : List Char}

/-- The lines that a map of a script leads to are those of its content. -/
theorem line_of_mem_blockMap {e : MapEntry} (he : e ∈ (blockMap file source start cs).entries) :
    start ≤ e.original.line ∧ e.original.line ≤ start + breaks cs := by
  obtain ⟨a, c, b, hcs, -, -, rfl⟩ := mem_entries_blockMap.1 he
  have hline : (blockEntry file start (Position.origin.after a)).original.line =
      start + (Position.origin.line + breaks a) := congrArg (start + ·) (Position.line_after _ a)
  rw [hline, hcs, breaks_append, Position.line_origin]
  omega

/-- Whatever a script is compiled to, the lines that it leads to are those of its content. -/
theorem line_of_mem_merge? {new : Option SourceMap} {map : SourceMap}
    (hmap : SourceMap.merge? (some (blockMap file source start cs)) new = some map) {m : Mapping}
    (hm : m ∈ map.mappings) :
    start ≤ m.original.line ∧ m.original.line ≤ start + breaks cs := by
  have hentry : map.entry m ∈ map.entries := List.mem_map_of_mem hm
  show start ≤ (map.entry m).original.line ∧ (map.entry m).original.line ≤ start + breaks cs
  cases new with
  | none =>
    obtain rfl := Option.some.inj hmap
    exact line_of_mem_blockMap hentry
  | some new =>
    obtain rfl := Option.some.inj hmap
    obtain ⟨x, -, hx⟩ := (mem_entries_merge rfl).1 hentry
    unfold SourceMap.trace at hx
    obtain ⟨-, -, hx⟩ := Option.bind_eq_some_iff.1 hx
    obtain ⟨o, ho, heq⟩ := Option.bind_eq_some_iff.1 hx
    rw [original?_eq_resolve fun m hm => range_blockMap hm] at ho
    obtain ⟨e, he, -, -, horigin⟩ := exists_of_resolve ho
    obtain ⟨s, -, rfl⟩ := Option.map_eq_some_iff.1 horigin
    have hlines := line_of_mem_blockMap he
    rw [← Option.some.inj heq]
    exact hlines

/-- A plain script that has moved down has its body relocated. -/
theorem plainFragment_relocate {block block' : ScriptBlock} (hsrc : block.src = none)
    (hsrc' : block'.src = none) (hmap : block.map = some (blockMap file source start cs))
    (hmap' : block'.map = some (blockMap file source' (start + k) cs)) {f : Nat → Nat}
    (hf : ∀ line, start ≤ line → line ≤ start + breaks cs → f line = line + k)
    (content : String) (made : Fragment) :
    Stage.plainFragment file block' content made =
      (Stage.plainFragment file block content made).relocate f source' := by
  unfold Stage.plainFragment Fragment.relocate
  rw [hsrc, hsrc', hmap, hmap', blockMap_relocate source' file source, SourceMap.merge?_relocate]
  dsimp only
  congr 1
  cases hmerged : SourceMap.merge? (some (blockMap file source start cs)) made.map with
  | none => rfl
  | some map =>
    refine congrArg some (SourceMap.relocate_congr source' fun m hm => ?_)
    obtain ⟨hle, hge⟩ := line_of_mem_merge? hmerged hm
    exact (hf _ hle hge).symm

end Script

/-! ### Parts -/

namespace SingleFileTransformer

section Parts

variable {base : Context κ} {p : Pace} {c c' : Component}

/-- Two assemblies differ in their scripts only, which are related, and the template keeps to `Q`. -/
def DifferInScript (R : Option Fragment → Option Fragment → Prop) (Q : Fragment → Prop)
    (a a' : Assembly) : Prop :=
  a' = { a with script := a'.script } ∧ R a.script a'.script ∧ ∀ made ∈ a.template, Q made

/-- Behind scripts that are related and one template, the same styles and custom blocks that are heard make
assemblies that differ in their scripts only. -/
theorem meet_assemblies [Nonempty (Session κ)] {R : Option Fragment → Option Fragment → Prop}
    {Q : Fragment → Prop} (h : base.SteadyAt HookInput.Alike p p)
    (hfunctional : c'.isFunctional = c.isFunctional)
    (hstyles : c'.moduleStyles.map StyleBlock.unplaced = c.moduleStyles.map StyleBlock.unplaced)
    (hcustom : (c'.customBlocks.filter fun b => Stage.hears base b.kind).map CustomBlock.unplaced =
      (c.customBlocks.filter fun b => Stage.hears base b.kind).map CustomBlock.unplaced)
    {script script' template : Option Fragment} (hR : R script script')
    (hQ : ∀ made ∈ template, Q made) :
    Meet (DifferInScript R Q)
      (do
        let styles ← Stage.styleResults (base.paced p) c.moduleStyles
        let custom ← Stage.customCode (base.paced p) c.customBlocks
        pure {
          filename := base.file, esm := base.settings.esm, isFunctional := c.isFunctional
          script, template, styles, custom } : Action κ Assembly)
      (do
        let styles ← Stage.styleResults (base.paced p) c'.moduleStyles
        let custom ← Stage.customCode (base.paced p) c'.customBlocks
        pure {
          filename := base.file, esm := base.settings.esm, isFunctional := c'.isFunctional
          script := script', template, styles, custom } : Action κ Assembly) := by
  rw [Stage.styleResults_congr (base.paced p) hstyles, hfunctional]
  refine meet_bind (meet_styles h ordered_styleResults ordered_styleResults _) ?_
  rintro styles _ ⟨rfl, -⟩ -
  refine meet_bind (Stage.agree_customCode_unplaced h hcustom.symm).meet ?_
  rintro custom _ rfl -
  exact (agree_done ⟨rfl, hR, hQ⟩).meet

/-- Two components with the same template, styles and custom blocks that are heard have the same parts
but for the script, and fail alike. -/
theorem meet_parts [Nonempty (Session κ)] {R : Option Fragment → Option Fragment → Prop}
    {Q : Fragment → Prop} (h : base.SteadyAt HookInput.Alike p p)
    (hbody : Agree (fun x x' => R x.1 x'.1 ∧ x.2 = none ∧ x'.2 = none)
      (Stage.body (base.paced p) c) (Stage.body (base.paced p) c'))
    (htemplate : c'.template.map TemplateBlock.unplaced = c.template.map TemplateBlock.unplaced)
    (hQ : ∀ template ∈ c.template, ∀ made,
      (Stage.render (base.paced p) template none).Gives (.ok made) → Q made)
    (hfunctional : c'.isFunctional = c.isFunctional)
    (hstyles : c'.moduleStyles.map StyleBlock.unplaced = c.moduleStyles.map StyleBlock.unplaced)
    (hcustom : (c'.customBlocks.filter fun b => Stage.hears base b.kind).map CustomBlock.unplaced =
      (c.customBlocks.filter fun b => Stage.hears base b.kind).map CustomBlock.unplaced) :
    Meet (DifferInScript R Q) (parts (base.paced p) c) (parts (base.paced p) c') := by
  refine meet_bind hbody.meet ?_
  rintro ⟨script, bindings⟩ ⟨script', bindings'⟩ ⟨hR, rfl, rfl⟩ -
  cases ht : c.template with
  | none =>
    rw [ht] at htemplate
    rw [Option.map_eq_none_iff.1 htemplate]
    refine meet_assemblies h hfunctional hstyles hcustom hR ?_
    rintro made ⟨⟩
  | some template =>
    rw [ht] at htemplate
    obtain ⟨template', ht', heq⟩ := Option.map_eq_some_iff.1 htemplate
    have hrender : Stage.render (base.paced p) template' none =
        Stage.render (base.paced p) template none := by
      rw [← Stage.render_unplaced, heq, Stage.render_unplaced]
    rw [ht']
    dsimp only
    rw [hrender]
    refine meet_bind (Stage.agree_render h template none).meet ?_
    rintro made _ rfl hmade
    refine meet_assemblies h hfunctional hstyles hcustom hR ?_
    rintro _ ⟨⟩
    exact hQ template ht made hmade

def SameBody (file : String) (script script' : Option ScriptBlock) (made made' : Option Fragment) :
    Prop :=
  script = none ∧ made = none ∧ made' = none ∨
    ∃ block block' content compiled, script = some block ∧ script' = some block' ∧
      made = some (Stage.plainFragment file block content compiled) ∧
      made' = some (Stage.plainFragment file block' content compiled)

theorem agree_body_of_script (h : base.SteadyAt HookInput.Alike p p) (hsetup : c.setupScript = none)
    (hsetup' : c'.setupScript = none)
    (hscript : c'.script.map (fun b => b.toBlock.unplaced) =
      c.script.map fun b => b.toBlock.unplaced) :
    Agree (fun x x' => SameBody base.file c.script c'.script x.1 x'.1 ∧ x.2 = none ∧ x'.2 = none)
      (Stage.body (base.paced p) c) (Stage.body (base.paced p) c') := by
  unfold Stage.body
  rw [hsetup, hsetup']
  cases hs : c.script with
  | none =>
    rw [hs] at hscript
    rw [Option.map_eq_none_iff.1 hscript]
    exact agree_done ⟨.inl ⟨rfl, rfl, rfl⟩, rfl, rfl⟩
  | some block =>
    rw [hs] at hscript
    obtain ⟨block', hs', heq⟩ := Option.map_eq_some_iff.1 hscript
    rw [hs']
    obtain ⟨hcontent, -, hlang, hsrc⟩ :
        block.content = block'.content ∧ block.attributes = block'.attributes ∧
          block.lang = block'.lang ∧ block.src = block'.src := by
      simpa [Block.unplaced, eq_comm] using heq
    refine agree_bind (Stage.agree_plainBody h hcontent hlang hsrc) ?_
    rintro _ _ ⟨content, made, rfl, rfl⟩ -
    exact agree_done ⟨.inr ⟨block, block', content, made, rfl, rfl, rfl, rfl⟩, rfl, rfl⟩

theorem code_plainFragment (file : String) (block : ScriptBlock) (content : String)
    (compiled : Fragment) :
    (Stage.plainFragment file block content compiled).code = withoutMapComment compiled.code := by
  unfold Stage.plainFragment
  cases block.src <;> rfl

theorem SameBody.code_eq {file : String} {script script' : Option ScriptBlock}
    {made made' : Option Fragment} (h : SameBody file script script' made made') :
    made.map (·.code) = made'.map (·.code) := by
  rcases h with ⟨-, rfl, rfl⟩ | ⟨block, block', content, compiled, -, -, rfl, rfl⟩
  · rfl
  · rw [Option.map_some, Option.map_some, code_plainFragment, code_plainFragment]

end Parts

/-! ### Insertions -/

section Insertion

variable {front ins back : List Piece} {heard : String → Bool} {file : String}

/-- Whether lines move as far as the plain script does when something is inserted before the last
part of a file. -/
def MovesScript (front ins back : List Piece) (f : Nat → Nat) : Prop :=
  ∀ b, (placed [] (front ++ back)).find? (·.role = .script) = some b →
    ∀ line, breaks b.beforeContent ≤ line →
      line ≤ breaks b.beforeContent + breaks b.content.toList →
      f line = line + if byteLength (renderPieces front) ≤ byteLength b.before then
        breaks (renderPieces ins) else 0

/-- The script of a file becomes the same with its map moved along. -/
theorem SameBody.relocate {made made' : Option Fragment} (hins : ∀ w, .block w ∈ ins → w.Unheard heard)
    (h : SameBody file (Component.written file (front ++ back)).script
      (Component.written file (front ++ ins ++ back)).script made made')
    (hinline : ∀ block ∈ (Component.written file (front ++ back)).script, block.src = none)
    {f : Nat → Nat} (hf : MovesScript front ins back f) :
    made' = made.map (Fragment.relocate f (fileText (front ++ ins ++ back))) := by
  rcases h with ⟨-, rfl, rfl⟩ | ⟨block, block', content, compiled, hb, hb', rfl, rfl⟩
  · rfl
  · have hsrc := hinline block hb
    obtain ⟨b, hfound, rfl⟩ := Option.map_eq_some_iff.1 hb
    have hmoved : (b.moved (renderPieces front) (renderPieces ins)).toScript file
        (fileText (front ++ ins ++ back)) = block' := by
      refine Option.some.inj (Eq.trans ?_ hb')
      unfold Component.written Component.ofWritten
      dsimp only
      rw [Component.find?_role_insert hins (by decide) (by decide), hfound]
      rfl
    rw [← hmoved, Option.map_some]
    refine congrArg some (plainFragment_relocate hsrc ?_ rfl ?_ (hf b hfound) _ _)
    · rw [← hsrc]
      unfold PlacedBlock.moved
      split <;> rfl
    · show some (blockMap _ _ (breaks (b.moved _ _).beforeContent) (b.moved _ _).content.toList) = _
      rw [breaks_beforeContent_moved (List.mem_of_find?_eq_some hfound),
        PlacedBlock.toWrittenBlock_moved]
      split <;> rfl

/-- Whether the plain script of a component stands behind an insertion. -/
def ScriptBehind (front : List Piece) (c : Component) : Bool :=
  c.script.any fun block => decide (byteLength (renderPieces front) ≤ block.span.start)

theorem movesScript_of_behind (front ins back : List Piece) (file : String) :
    MovesScript front ins back fun line =>
      line + if ScriptBehind front (Component.written file (front ++ back)) then
        breaks (renderPieces ins) else 0 := by
  intro b hb line _ _
  have hbehind : ScriptBehind front (Component.written file (front ++ back)) =
      decide (byteLength (renderPieces front) ≤ byteLength b.before) := by
    unfold ScriptBehind Component.written Component.ofWritten
    dsimp only
    rw [hb]
    rfl
  dsimp only
  rw [hbehind]
  simp only [decide_eq_true_eq]

/-- Between two lines, the lines that are moved are those behind the insertion. -/
theorem movesScript_movedDown (hpieces : ∀ p ∈ front ++ back, p.Sound) {first : Nat}
    (hfirst : BetweenLines (renderPieces front) (renderPieces back) first) :
    MovesScript front ins back (movedDown first (breaks (renderPieces ins))) := by
  intro b hb line hle hge
  have hmem := List.mem_of_find?_eq_some hb
  rw [← breaks_append] at hge
  have hiff := le_line_iff_of_mem (hpieces _ (mem_of_mem_placed hmem)) hmem hfirst hle hge
  unfold movedDown
  by_cases h : first ≤ line
  · rw [if_pos h, if_pos (hiff.1 h)]
  · rw [if_neg h, if_neg fun hbehind => h (hiff.2 hbehind), Nat.add_zero]

variable {t : SingleFileTransformer κ} {files : Files} {settings : Settings} {pace : Pace}

/-- Whether no map comes from the template of a component. -/
def NoTemplateMap (t : SingleFileTransformer κ) (files : Files) (file : String)
    (settings : Settings) (pace : Pace) (c : Component) : Prop :=
  ∀ cx, (t.context files file settings pace).Gives (.ok cx) → ∀ template ∈ c.template, ∀ made,
    (Stage.render cx template none).Gives (.ok made) → made.map = none

theorem sound_of_insert (hpieces : ∀ p ∈ front ++ ins ++ back, p.Sound) :
    ∀ p ∈ front ++ back, p.Sound := by
  intro p hp
  apply hpieces
  rcases List.mem_append.1 hp with hp | hp
  · exact List.mem_append_left _ (List.mem_append_left _ hp)
  · exact List.mem_append_right _ hp

theorem meet_say (events events' : List Event) :
    Meet (fun _ _ => True) (say events : Action κ Unit) (say events') :=
  .inl ⟨(), (), trivial, gives_say events, gives_say events'⟩

theorem meet_parts_insert [Nonempty (Session κ)] {base : Context κ}
    (hbase : base.SteadyAt HookInput.Alike pace pace)
    (hcx : (t.context files file settings pace).Gives (.ok (base.paced pace)))
    (hsetup : (Component.written file (front ++ back)).setupScript = none)
    (hins : ∀ w, .block w ∈ ins → w.Unheard (Stage.hears base)) :
    Meet
      (DifferInScript
        (SameBody base.file (Component.written file (front ++ back)).script
          (Component.written file (front ++ ins ++ back)).script)
        fun made => t.NoTemplateMap files file settings pace (Component.written file (front ++ back)) →
          made.map = none)
      (parts (base.paced pace) (Component.written file (front ++ back)))
      (parts (base.paced pace) (Component.written file (front ++ ins ++ back))) := by
  have htemplate : (Component.written file (front ++ ins ++ back)).template.map TemplateBlock.unplaced =
      (Component.written file (front ++ back)).template.map TemplateBlock.unplaced :=
    Component.template_insert hins
  have hscript : (Component.written file (front ++ ins ++ back)).script.map (fun b => b.toBlock.unplaced) =
      (Component.written file (front ++ back)).script.map fun b => b.toBlock.unplaced :=
    Component.script_insert hins
  refine meet_parts hbase ?_ htemplate ?_ (Component.isFunctional_congr htemplate hscript)
    (Component.moduleStyles_insert hins) (Component.customBlocks_insert hins)
  · exact agree_body_of_script hbase hsetup (Component.setupScript_insert hins hsetup) hscript
  · intro template ht made hmade hnone
    exact hnone (base.paced pace) hcx template ht made hmade

theorem meet_process_insert [Nonempty (Session κ)] (ht : t.SteadyAt HookInput.Alike pace pace)
    (hpieces : ∀ p ∈ front ++ ins ++ back, p.Sound)
    (hsetup : (Component.parse (fileText (front ++ back)) file).setupScript = none)
    (hins : ∀ cx, (t.context files file settings pace).Gives (.ok cx) →
      ∀ w, .block w ∈ ins → w.Unheard (Stage.hears cx)) :
    Meet (fun output output' => output'.code = output.code ∧
        ((∀ block ∈ (Component.written file (front ++ back)).script, block.src = none) →
          t.NoTemplateMap files file settings pace (Component.written file (front ++ back)) →
          ∀ f, MovesScript front ins back f →
            output'.map = output.map.relocate f (fileText (front ++ ins ++ back))))
      (t.process files (fileText (front ++ back)) file settings pace)
      (t.process files (fileText (front ++ ins ++ back)) file settings pace) := by
  rw [Component.parse_fileText file (sound_of_insert hpieces)] at hsetup
  unfold process processOn
  rw [Component.parse_fileText file (sound_of_insert hpieces), Component.parse_fileText file hpieces]
  rcases agree_context ht files file settings with
    ⟨cx, cx', ⟨base, hbase, -, hfile, -, rfl, rfl⟩, hp, hq⟩ | ⟨e, hp, hq⟩
  · have hcontext : Meet (fun cx cx' => cx = base.paced pace ∧ cx' = base.paced pace)
        (t.context files file settings pace) (t.context files file settings pace) :=
      .inl ⟨_, _, ⟨rfl, rfl⟩, hp, hq⟩
    have hins : ∀ w, .block w ∈ ins → w.Unheard (Stage.hears base) := hins (base.paced pace) hp
    refine meet_bind hcontext ?_
    rintro _ _ ⟨rfl, rfl⟩ -
    refine meet_bind (meet_say _ _) ?_
    rintro _ _ - -
    refine meet_bind (meet_say _ _) ?_
    rintro _ _ - -
    refine meet_bind (meet_parts_insert hbase hp hsetup hins) ?_
    rintro a a' ⟨ha', hbody, hmap⟩ -
    refine meet_bind (meet_say _ _) ?_
    rintro _ _ - -
    refine (agree_done ⟨?_, ?_⟩).meet
    · rw [ha']
      exact Assembly.code_assemble_congr a hbody.code_eq
    · intro hinline hnone f hf
      rw [hfile] at hbody
      have hmade := Assembly.assemble_relocate f (fileText (front ++ ins ++ back)) a
        fun made hmade => hmap made hmade hnone
      rw [← hbody.relocate hins hinline hf, ← ha'] at hmade
      exact congrArg Output.map hmade
  · exact Agree.meet (.inr ⟨e, hp.bind_error, hq.bind_error⟩)

/-- **Blocks that take no part do not interfere.**  Where styles without a module and blocks that no
transformer takes are inserted between two parts of a file, the transformation succeeds just if it
did before, with the same code.  Where only a plain script inside of the file has a map, its mappings
are those from before, moved down by the inserted lines if the script stands behind them; between two
lines of the file these are the mappings that lead to the lines below.  Compilers and transformers are
taken to give one result for each request at the pace of the two runs, and transformers the same one
wherever the blocks stand that they are given. -/
theorem run_insert (ht : t.SteadyAt HookInput.Alike pace pace)
    (hpieces : ∀ p ∈ front ++ ins ++ back, p.Sound)
    (hsetup : (Component.parse (fileText (front ++ back)) file).setupScript = none)
    (hins : ∀ cx, (t.context files file settings pace).Gives (.ok cx) →
      ∀ w, .block w ∈ ins → w.Unheard (Stage.hears cx))
    (s s' : Session κ) :
    (∃ output output',
      ((t.process files (fileText (front ++ back)) file settings pace).run s).1 = .ok output ∧
      ((t.process files (fileText (front ++ ins ++ back)) file settings pace).run s').1 =
        .ok output' ∧
      output'.code = output.code ∧
      ((∀ block ∈ (Component.parse (fileText (front ++ back)) file).script, block.src = none) →
        t.NoTemplateMap files file settings pace
          (Component.parse (fileText (front ++ back)) file) →
        output'.map = output.map.relocate
          (fun line => line + if ScriptBehind front
            (Component.parse (fileText (front ++ back)) file) then breaks (renderPieces ins) else 0)
          (fileText (front ++ ins ++ back)) ∧
        ∀ first, BetweenLines (renderPieces front) (renderPieces back) first →
          output'.map = output.map.relocate (movedDown first (breaks (renderPieces ins)))
            (fileText (front ++ ins ++ back)))) ∨
    ∃ e e', ((t.process files (fileText (front ++ back)) file settings pace).run s).1 = .error e ∧
      ((t.process files (fileText (front ++ ins ++ back)) file settings pace).run s').1 =
        .error e' := by
  have hsession : Nonempty (Session κ) := ⟨s⟩
  have hpieces' := sound_of_insert hpieces
  rcases (meet_process_insert ht hpieces hsetup hins).run s s' with
    ⟨output, output', ⟨hcode, hmap⟩, hrun, hrun'⟩ | herror
  · refine .inl ⟨output, output', hrun, hrun', hcode, ?_⟩
    rw [Component.parse_fileText file hpieces']
    intro hinline hnone
    refine ⟨hmap hinline hnone _ (movesScript_of_behind front ins back file), ?_⟩
    intro first hfirst
    exact hmap hinline hnone _ (movesScript_movedDown hpieces' hfirst)
  · exact .inr herror

end Insertion

end SingleFileTransformer

/-! ### A file with an insertion -/

open SingleFileTransformer

def notedFile : String := "/app/Noted.vue"

def notedFront : List Piece := [.block ⟨"note", [], "a <b>", false⟩, .text ['\n']]

/-- A style with an attribute, and a block of another kind. -/
def notedInsertion : List Piece :=
  [.block ⟨"style", [⟨"scoped", none⟩], "\n.a \x7b \x7d\n", false⟩, .text ['\n'],
    .block ⟨"Docs", [], "</script>", false⟩, .text ['\n']]

def notedBack : List Piece :=
  [.block ⟨"script", [], "\nexport default a\n", false⟩, .text ['\n'],
    .block ⟨"note", [], "c", false⟩]

def noteOutcome : HookInput → Except CompilerFault HookOutput
  | .customBlocks blocks _ _ _ => .ok (.text ("// " ++ "|".intercalate (blocks.map (·.content))))
  | _ => .error .unreadable

theorem noteOutcome_unplaced (i : HookInput) : noteOutcome i.unplaced = noteOutcome i := by
  cases i with
  | script source file settings => rfl
  | style text => rfl
  | customBlocks blocks options file settings =>
    unfold HookInput.unplaced noteOutcome
    dsimp only
    rw [List.map_map]
    rfl

/-- The transformer of notes with an outcome; its other way to process fails. -/
def notesTransformer (outcome : HookInput → Except CompilerFault HookOutput) : Transformer Unit :=
  { Transformer.bare { process := true, processAsync := true } with
    process := fun i => .ofExcept (outcome i) }

def notingTransformer (outcome : HookInput → Except CompilerFault HookOutput) :
    SingleFileTransformer Unit where
  supplied := [("note", notesTransformer outcome)]

theorem steadyAt_notingTransformer {alike : HookInput → HookInput → Prop}
    {outcome : HookInput → Except CompilerFault HookOutput}
    (h : ∀ i i', alike i i' → outcome i = outcome i') :
    (notingTransformer outcome).SteadyAt alike .blocking .blocking where
  compilers := Compilers.steady_builtIn.mono fun _ h => h.steadyAt _ _
  catalog := by
    rintro name u ⟨⟩
  supplied := by
    intro e he
    obtain rfl := List.mem_singleton.1 he
    refine ⟨?_, ⟨outcome, h, fun i => ⟨gives_ofExcept _, gives_ofExcept _⟩⟩, ?_⟩
    · rintro ⟨⟩
    · rintro ⟨⟩

abbrev notedTransformer : SingleFileTransformer Unit := notingTransformer noteOutcome

theorem steadyAt_notedTransformer :
    notedTransformer.SteadyAt HookInput.Alike .blocking .blocking :=
  steadyAt_notingTransformer fun _ _ h => h.apply_eq noteOutcome_unplaced

/-- What the context of one run hears is what the context of any run hears. -/
theorem hears_eq_false {t : SingleFileTransformer Unit} {kind : String}
    (h : ((t.context {} notedFile {} .blocking).run ⟨[], ()⟩).1.toOption.all
      (fun cx => !Stage.hears cx kind) = true)
    {cx : Context Unit} (hcx : (t.context {} notedFile {} .blocking).Gives (.ok cx)) :
    Stage.hears cx kind = false := by
  rw [hcx.run ⟨[], ()⟩] at h
  simpa [Except.toOption] using h

theorem unheard_notedInsertion {heard : String → Bool} (h : heard "docs" = false) :
    ∀ w, .block w ∈ notedInsertion → w.Unheard heard := by
  intro w hw
  simp only [notedInsertion, List.mem_cons, Piece.block.injEq, reduceCtorEq, List.not_mem_nil,
    or_false, false_or] at hw
  rcases hw with rfl | rfl
  · exact .inl ⟨by decide +kernel, by decide +kernel⟩
  · refine .inr ⟨by decide +kernel, by decide +kernel, by decide +kernel, ?_⟩
    rwa [show WrittenBlock.kind ⟨"Docs", [], "</script>", false⟩ = "docs" by decide +kernel]

theorem run_insert_notedFile : notedTransformer.SteadyAt HookInput.Alike .blocking .blocking ∧
    (∀ p ∈ notedFront ++ notedInsertion ++ notedBack, p.Sound) ∧
    ∃ output output',
      ((notedTransformer.process {} (fileText (notedFront ++ notedBack)) notedFile {} .blocking).run
        ⟨[], ()⟩).1 = .ok output ∧
      ((notedTransformer.process {} (fileText (notedFront ++ notedInsertion ++ notedBack)) notedFile
        {} .blocking).run ⟨[], ()⟩).1 = .ok output' ∧
      output'.code = output.code ∧
      output'.map = output.map.relocate (movedDown 1 4)
        (fileText (notedFront ++ notedInsertion ++ notedBack)) := by
  have hpieces : ∀ p ∈ notedFront ++ notedInsertion ++ notedBack, p.Sound := by decide +kernel
  have hparse : ((Component.parse (fileText (notedFront ++ notedBack)) notedFile).setupScript.isNone &&
      (Component.parse (fileText (notedFront ++ notedBack)) notedFile).template.isNone &&
      (Component.parse (fileText (notedFront ++ notedBack)) notedFile).script.all
        fun block => block.src.isNone) = true := by
    decide +kernel
  have hheard : ((notedTransformer.context {} notedFile {} .blocking).run ⟨[], ()⟩).1.toOption.all
      (fun cx => !Stage.hears cx "docs") = true := by
    decide +kernel
  have hok : ((notedTransformer.process {} (fileText (notedFront ++ notedBack)) notedFile {}
      .blocking).run ⟨[], ()⟩).1.toOption.any (fun _ => true) = true := by
    decide +kernel
  simp only [Bool.and_eq_true, Option.isNone_iff_eq_none] at hparse
  obtain ⟨⟨hsetup, htemplate⟩, hscript⟩ := hparse
  have hins : ∀ cx, (notedTransformer.context {} notedFile {} .blocking).Gives (.ok cx) →
      ∀ w, .block w ∈ notedInsertion → w.Unheard (Stage.hears cx) :=
    fun cx hcx => unheard_notedInsertion (hears_eq_false hheard hcx)
  refine ⟨steadyAt_notedTransformer, hpieces, ?_⟩
  rcases run_insert steadyAt_notedTransformer hpieces hsetup hins ⟨[], ()⟩ ⟨[], ()⟩ with
    ⟨output, output', hrun, hrun', hcode, hmap⟩ | ⟨e, e', hrun, -⟩
  · refine ⟨output, output', hrun, hrun', hcode, ?_⟩
    have hinline : ∀ block ∈ (Component.parse (fileText (notedFront ++ notedBack)) notedFile).script,
        block.src = none := by
      intro block hblock
      rw [Option.mem_def.1 hblock] at hscript
      exact Option.isNone_iff_eq_none.1 hscript
    have hnone : notedTransformer.NoTemplateMap {} notedFile {} .blocking
        (Component.parse (fileText (notedFront ++ notedBack)) notedFile) := by
      intro cx _ template ht
      rw [htemplate] at ht
      cases ht
    exact (hmap hinline hnone).2 1 (.inl ⟨.inr ⟨"<note>a <b></note>".toList, by decide +kernel⟩, by
      decide +kernel⟩)
  · rw [hrun] at hok
    cases hok

/-! ### Places and tags that a transformer can tell -/

/-- An insertion leaves the code as it is, and a failure a failure. -/
def KeepsCode (t : SingleFileTransformer κ) (file : String) (front ins back : List Piece)
    (s : Session κ) : Prop :=
  ((t.process {} (fileText (front ++ ins ++ back)) file {} .blocking).run s).1.toOption.map (·.code) =
    ((t.process {} (fileText (front ++ back)) file {} .blocking).run s).1.toOption.map (·.code)

theorem not_keepsCode_of_fails {t : SingleFileTransformer κ} {front ins back : List Piece}
    {s : Session κ}
    (hins : ((t.process {} (fileText (front ++ ins ++ back)) file {} .blocking).run s).1.isOk = false)
    (h : ((t.process {} (fileText (front ++ back)) file {} .blocking).run s).1.isOk = true) :
    ¬ KeepsCode t file front ins back s := by
  unfold KeepsCode
  generalize ((t.process {} (fileText (front ++ ins ++ back)) file {} .blocking).run s).1 = after at *
  generalize ((t.process {} (fileText (front ++ back)) file {} .blocking).run s).1 = before at *
  cases after with
  | ok _ => cases hins
  | error _ =>
    cases before with
    | ok _ => exact nofun
    | error _ => cases h

/-- Refuses notes that start behind the first hundred bytes of a file. -/
def placeOutcome : HookInput → Except CompilerFault HookOutput
  | .customBlocks blocks options file settings =>
    if blocks.any fun block => 100 < block.span.start then .error (.message "a note stands too low")
    else noteOutcome (.customBlocks blocks options file settings)
  | _ => .error .unreadable

/-- Refuses more than two notes. -/
def countOutcome : HookInput → Except CompilerFault HookOutput
  | .customBlocks blocks options file settings =>
    if 2 < blocks.length then .error (.message "there are too many notes")
    else noteOutcome (.customBlocks blocks options file settings)
  | _ => .error .unreadable

theorem countOutcome_unplaced (i : HookInput) : countOutcome i.unplaced = countOutcome i := by
  cases i with
  | script source file settings => rfl
  | style text => rfl
  | customBlocks blocks options file settings =>
    have hnote := noteOutcome_unplaced (.customBlocks blocks options file settings)
    unfold HookInput.unplaced at hnote
    unfold HookInput.unplaced countOutcome
    dsimp only at hnote ⊢
    rw [List.length_map, hnote]

/-- A note whose tag has a capital. -/
def capitalInsertion : List Piece := [.block ⟨"Note", [], "d", false⟩, .text ['\n']]

/-- Blocks that take no part matter to a transformer that is given other blocks and tells where these
stand.  So does a block with a tag that no transformer takes as it is written, since its kind is the
tag in lower case. -/
theorem not_keepsCode_notedFile :
    (Component.parse (fileText (notedFront ++ notedBack)) notedFile).setupScript.isNone = true ∧
    ((notingTransformer placeOutcome).SteadyAt Eq .blocking .blocking ∧
      (∀ p ∈ notedFront ++ notedInsertion ++ notedBack, p.Sound) ∧
      (∀ cx, ((notingTransformer placeOutcome).context {} notedFile {} .blocking).Gives (.ok cx) →
        ∀ w, .block w ∈ notedInsertion → w.Unheard (Stage.hears cx)) ∧
      ¬ KeepsCode (notingTransformer placeOutcome) notedFile notedFront notedInsertion notedBack
        ⟨[], ()⟩) ∧
    (notingTransformer countOutcome).SteadyAt HookInput.Alike .blocking .blocking ∧
      (∀ p ∈ notedFront ++ capitalInsertion ++ notedBack, p.Sound) ∧
      (∀ cx, ((notingTransformer countOutcome).context {} notedFile {} .blocking).Gives (.ok cx) →
        ∀ w, .block w ∈ capitalInsertion → Stage.hears cx w.tag = false) ∧
      ¬ KeepsCode (notingTransformer countOutcome) notedFile notedFront capitalInsertion notedBack
        ⟨[], ()⟩ := by
  refine ⟨by decide +kernel, ⟨steadyAt_notingTransformer fun _ _ => congrArg placeOutcome,
    by decide +kernel, ?_, not_keepsCode_of_fails (by decide +kernel) (by decide +kernel)⟩,
    steadyAt_notingTransformer fun _ _ h => h.apply_eq countOutcome_unplaced, by decide +kernel, ?_,
    not_keepsCode_of_fails (by decide +kernel) (by decide +kernel)⟩
  · exact fun cx hcx => unheard_notedInsertion (hears_eq_false (by decide +kernel) hcx)
  · intro cx hcx w hw
    simp only [capitalInsertion, List.mem_cons, Piece.block.injEq, reduceCtorEq, List.not_mem_nil,
      or_false] at hw
    obtain rfl := hw
    exact hears_eq_false (by decide +kernel) hcx

end SingleFile
