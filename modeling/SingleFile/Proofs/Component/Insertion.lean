import SingleFile.Component.Outline
import SingleFile.Proofs.Component.Rendering
import SingleFile.Proofs.SourceMap.Draft
import SingleFile.Proofs.SourceMap.Relocate

/-!
# Text inserted into a component file

Blocks behind an insertion stand further down, and all else about them stays (`PlacedBlock.moved`,
`placed_insert`).  A component is the same but for the places of its blocks if what is inserted adds
nothing to a given choice of blocks (`filter_placed_insert`, `find?_placed_insert`).
`movedDown_of_mem` says which lines of the file are moved.
-/

namespace SingleFile

/-! ### Blocks without their places -/

def Block.unplaced (b : Block) : Block :=
  { b with span := ⟨0, 0⟩, contentSpan := ⟨0, 0⟩, map := none }

def TemplateBlock.unplaced (b : TemplateBlock) : TemplateBlock :=
  { b with toBlock := b.toBlock.unplaced }

def StyleBlock.unplaced (b : StyleBlock) : StyleBlock := { b with toBlock := b.toBlock.unplaced }

def CustomBlock.unplaced (b : CustomBlock) : CustomBlock := { b with toBlock := b.toBlock.unplaced }

/-! ### Placed blocks -/

theorem renderPieces_append (ps qs : List Piece) :
    renderPieces (ps ++ qs) = renderPieces ps ++ renderPieces qs := List.flatMap_append

theorem placed_append (before : List Char) (ps qs : List Piece) :
    placed before (ps ++ qs) = placed before ps ++ placed (before ++ renderPieces ps) qs := by
  induction ps generalizing before with
  | nil => rw [renderPieces, List.flatMap_nil, List.append_nil]; rfl
  | cons p ps ih =>
    have hcons : renderPieces (p :: ps) = p.render ++ renderPieces ps := List.flatMap_cons
    have hrest := ih (before ++ p.render)
    rw [List.append_assoc, ← hcons] at hrest
    cases p with
    | text cs => exact hrest
    | comment body => exact hrest
    | block w => exact congrArg (PlacedBlock.mk w before :: ·) hrest

theorem mem_of_mem_placed {before : List Char} {ps : List Piece} {b : PlacedBlock}
    (h : b ∈ placed before ps) : .block b.toWrittenBlock ∈ ps := by
  induction ps generalizing before with
  | nil => cases h
  | cons p ps ih =>
    have hrest (h : b ∈ placed (before ++ p.render) ps) : .block b.toWrittenBlock ∈ p :: ps :=
      List.mem_cons_of_mem p (ih h)
    cases p with
    | text cs => exact hrest h
    | comment body => exact hrest h
    | block w =>
      rcases List.mem_cons.1 h with rfl | h
      · exact List.mem_cons_self
      · exact hrest h

/-- A placed block stands behind what comes first, and the rest of the file follows it. -/
theorem exists_of_mem_placed {before : List Char} {ps : List Piece} {b : PlacedBlock}
    (h : b ∈ placed before ps) :
    ∃ between rest, b.before = before ++ between ∧
      renderPieces ps = between ++ b.render ++ rest := by
  induction ps generalizing before with
  | nil => cases h
  | cons p ps ih =>
    have hcons : renderPieces (p :: ps) = p.render ++ renderPieces ps := List.flatMap_cons
    have hrest (h : b ∈ placed (before ++ p.render) ps) : ∃ between rest,
        b.before = before ++ between ∧ renderPieces (p :: ps) = between ++ b.render ++ rest := by
      obtain ⟨between, rest, hb, hps⟩ := ih h
      refine ⟨p.render ++ between, rest, by rw [hb, List.append_assoc], ?_⟩
      rw [hcons, hps, List.append_assoc, List.append_assoc, List.append_assoc]
    cases p with
    | text cs => exact hrest h
    | comment body => exact hrest h
    | block w =>
      rcases List.mem_cons.1 h with rfl | h
      · exact ⟨[], renderPieces ps, (List.append_nil before).symm, hcons⟩
      · exact hrest h

namespace PlacedBlock

variable (front inserted : List Char)

/-- Where a block stands once something has been inserted behind some front of its file. -/
def moved (b : PlacedBlock) : PlacedBlock :=
  if byteLength front ≤ byteLength b.before then
    { b with before := front ++ inserted ++ b.before.drop front.length }
  else b

theorem toWrittenBlock_moved (b : PlacedBlock) :
    (b.moved front inserted).toWrittenBlock = b.toWrittenBlock := by
  unfold moved
  split <;> rfl

theorem moved_of_lt {b : PlacedBlock} (h : byteLength b.before < byteLength front) :
    b.moved front inserted = b := if_neg (by omega)

theorem moved_of_prefix {b : PlacedBlock} {between : List Char} (h : b.before = front ++ between) :
    b.moved front inserted = { b with before := front ++ inserted ++ between } := by
  have hle : byteLength front ≤ byteLength b.before := by
    rw [h, byteLength_append]
    omega
  rw [moved, if_pos hle, h, List.drop_left]

theorem role_moved (b : PlacedBlock) : (b.moved front inserted).role = b.role := by
  unfold role
  rw [toWrittenBlock_moved]

theorem unplaced_toBlock_moved (b : PlacedBlock) :
    (b.moved front inserted).toBlock.unplaced = b.toBlock.unplaced := by
  unfold moved
  split <;> rfl

theorem unplaced_toTemplate_moved (b : PlacedBlock) :
    (b.moved front inserted).toTemplate.unplaced = b.toTemplate.unplaced := by
  unfold moved
  split <;> rfl

theorem unplaced_toStyle_moved (b : PlacedBlock) :
    (b.moved front inserted).toStyle.unplaced = b.toStyle.unplaced := by
  unfold moved
  split <;> rfl

theorem unplaced_toCustom_moved (b : PlacedBlock) :
    (b.moved front inserted).toCustom.unplaced = b.toCustom.unplaced := by
  unfold moved
  split <;> rfl

end PlacedBlock

section Insertion

variable {front ins back : List Piece}

theorem byteLength_before_lt {ps : List Piece} {b : PlacedBlock} (h : b ∈ placed [] ps) :
    byteLength b.before < byteLength (renderPieces ps) := by
  obtain ⟨between, rest, hb, hps⟩ := exists_of_mem_placed h
  have hrender : 0 < byteLength b.render := by
    have hstart : b.render = '<' :: (b.opening.tail ++ b.content.toList ++ b.closing) := rfl
    rw [hstart, byteLength_cons]
    have hsize : '<'.utf8Size = 1 := rfl
    omega
  rw [hb, List.nil_append, hps, byteLength_append, byteLength_append]
  omega

theorem map_moved_placed_front (inserted : List Char) :
    (placed [] front).map (PlacedBlock.moved (renderPieces front) inserted) = placed [] front := by
  refine (List.map_congr_left fun b hb => ?_).trans (List.map_id _)
  exact PlacedBlock.moved_of_lt _ _ (byteLength_before_lt hb)

theorem map_moved_placed_back (x inserted between : List Char) :
    (placed (x ++ between) back).map (PlacedBlock.moved x inserted) =
      placed (x ++ inserted ++ between) back := by
  induction back generalizing between with
  | nil => rfl
  | cons p ps ih =>
    have hrest := ih (between ++ p.render)
    rw [← List.append_assoc, ← List.append_assoc] at hrest
    cases p with
    | text cs => exact hrest
    | comment body => exact hrest
    | block w =>
      exact congrArg₂ List.cons (PlacedBlock.moved_of_prefix x inserted rfl) hrest

/-- The blocks of a file into which something has been inserted. -/
theorem placed_insert (front ins back : List Piece) :
    placed [] (front ++ ins ++ back) =
      (placed [] front).map (PlacedBlock.moved (renderPieces front) (renderPieces ins)) ++
        placed (renderPieces front) ins ++
      (placed (renderPieces front) back).map
        (PlacedBlock.moved (renderPieces front) (renderPieces ins)) := by
  have hback : (placed (renderPieces front ++ []) back).map _ = placed _ back :=
    map_moved_placed_back (renderPieces front) (renderPieces ins) []
  rw [List.append_nil, List.append_nil] at hback
  rw [placed_append, placed_append, map_moved_placed_front, hback, renderPieces_append]
  rfl

/-- Of the blocks that are chosen by anything but their places, none is added. -/
theorem filter_placed_insert {p : PlacedBlock → Bool}
    (hp : ∀ b, p (b.moved (renderPieces front) (renderPieces ins)) = p b)
    (hins : ∀ b ∈ placed (renderPieces front) ins, p b = false) :
    (placed [] (front ++ ins ++ back)).filter p =
      ((placed [] (front ++ back)).filter p).map
        (PlacedBlock.moved (renderPieces front) (renderPieces ins)) := by
  have hmoved (bs : List PlacedBlock) :
      (bs.map (PlacedBlock.moved (renderPieces front) (renderPieces ins))).filter p =
        (bs.filter p).map (PlacedBlock.moved (renderPieces front) (renderPieces ins)) := by
    rw [List.filter_map]
    exact congrArg (List.map _) (congrArg (List.filter · bs) (funext hp))
  have hnone : (placed (renderPieces front) ins).filter p = [] :=
    List.filter_eq_nil_iff.2 fun b hb => by rw [hins b hb]; exact Bool.false_ne_true
  rw [placed_insert, placed_append, List.filter_append, List.filter_append, List.filter_append,
    hnone, hmoved, hmoved, List.append_nil, List.map_append]
  rfl

/-- The block that is found first stays the first one. -/
theorem find?_placed_insert {p : PlacedBlock → Bool}
    (hp : ∀ b, p (b.moved (renderPieces front) (renderPieces ins)) = p b)
    (hins : ∀ b ∈ placed (renderPieces front) ins, p b = false) :
    (placed [] (front ++ ins ++ back)).find? p =
      ((placed [] (front ++ back)).find? p).map
        (PlacedBlock.moved (renderPieces front) (renderPieces ins)) := by
  have hhead (bs : List PlacedBlock) : bs.find? p = (bs.filter p).head? := by
    rw [List.head?_filter]
  rw [hhead, hhead, filter_placed_insert hp hins, List.head?_map]

/-! ### Lines -/

/-- A block stands behind the front of its file, or the front has all of it. -/
theorem mem_placed_cases {b : PlacedBlock} (hb : b ∈ placed [] (front ++ back)) :
    (∃ between rest, b.before = renderPieces front ++ between ∧
      renderPieces back = between ++ b.render ++ rest) ∨
    (byteLength b.before < byteLength (renderPieces front) ∧
      ∃ rest, renderPieces front = b.before ++ b.render ++ rest) := by
  rw [placed_append, List.nil_append] at hb
  rcases List.mem_append.1 hb with hb | hb
  · obtain ⟨between, rest, hbefore, hfront⟩ := exists_of_mem_placed hb
    refine .inr ⟨byteLength_before_lt hb, rest, ?_⟩
    rw [hfront, hbefore, List.nil_append]
  · exact .inl (exists_of_mem_placed hb)

/-- Whether the place between two parts of a file is where a line starts, or where one ends, and which
is the first line behind it. -/
def BetweenLines (front back : List Char) (first : Nat) : Prop :=
  StartsLine front ∧ first = breaks front ∨
    (back = [] ∨ ∃ rest, back = '\n' :: rest) ∧ first = breaks front + 1

/-- The lines from some line on are moved down. -/
def movedDown (first k line : Nat) : Nat := if first ≤ line then line + k else line

/-- A block ends with a bracket, behind all lines of its content. -/
theorem exists_render_eq {w : WrittenBlock} (hw : w.Sound) :
    ∃ x, w.render = x ++ ['>'] ∧ breaks (w.opening ++ w.content.toList) ≤ breaks x := by
  unfold WrittenBlock.render
  cases hself : w.closesItself with
  | true =>
    have hempty : w.content.toList = [] := by
      rw [hw.empty hself]
      rfl
    refine ⟨'<' :: (w.tag.toList ++ (w.attributes.flatMap Attribute.render ++ ['/'])), ?_, ?_⟩
    · unfold WrittenBlock.closing WrittenBlock.opening
      rw [hself, hempty]
      simp
    · unfold WrittenBlock.opening
      rw [hself, hempty]
      simp [breaks_append, breaks]
  | false =>
    refine ⟨w.opening ++ w.content.toList ++ '<' :: '/' :: w.tag.toList, ?_, ?_⟩
    · unfold WrittenBlock.closing
      rw [hself]
      simp
    · rw [breaks_append (w.opening ++ w.content.toList)]
      omega

/-- A line ends behind a character that is no line break. -/
theorem breaks_lt_of_startsLine {x rest : List Char} {c : Char} (hc : c ≠ '\n')
    (h : StartsLine (x ++ [c] ++ rest)) : breaks x < breaks (x ++ [c] ++ rest) := by
  rcases h with hnil | ⟨a, ha⟩
  · simp at hnil
  · rcases List.eq_nil_or_concat rest with rfl | ⟨r, d, rfl⟩
    · rw [List.append_nil] at ha
      exact absurd (List.append_inj_right' ha rfl) (by simpa using hc)
    · have hd : [d] = ['\n'] := by
        rw [List.concat_eq_append, ← List.append_assoc] at ha
        exact List.append_inj_right' ha rfl
      obtain rfl : d = '\n' := List.singleton_inj.1 hd
      rw [List.concat_eq_append]
      simp only [breaks_append]
      show _ < _ + (_ + 1)
      omega

/-- Lines of a block are moved down just if the block stands behind the insertion. -/
theorem le_line_iff_of_mem {b : PlacedBlock} (hsound : b.Sound)
    (hb : b ∈ placed [] (front ++ back)) {first line : Nat}
    (hfirst : BetweenLines (renderPieces front) (renderPieces back) first)
    (hle : breaks b.beforeContent ≤ line)
    (hge : line ≤ breaks (b.beforeContent ++ b.content.toList)) :
    first ≤ line ↔ byteLength (renderPieces front) ≤ byteLength b.before := by
  obtain ⟨x, hrender, hx⟩ := exists_render_eq hsound
  have hlines : breaks b.before ≤ breaks b.beforeContent := by
    rw [PlacedBlock.beforeContent, breaks_append]
    omega
  have hend : breaks (b.beforeContent ++ b.content.toList) ≤ breaks (b.before ++ x) := by
    rw [PlacedBlock.beforeContent, List.append_assoc, breaks_append, breaks_append b.before]
    omega
  rcases mem_placed_cases hb with ⟨between, rest, hbefore, hback⟩ | ⟨hlt, rest, hfront⟩
  · have hbehind : byteLength (renderPieces front) ≤ byteLength b.before := by
      rw [hbefore, byteLength_append]
      omega
    refine iff_of_true ?_ hbehind
    rcases hfirst with ⟨-, rfl⟩ | ⟨hstart, rfl⟩
    · rw [hbefore, breaks_append] at hlines
      omega
    · -- the line break behind the front stands before the block
      have hbreak : 1 ≤ breaks between := by
        obtain ⟨t, ht⟩ : ∃ t, b.render = '<' :: t := ⟨_, rfl⟩
        rw [hback, ht] at hstart
        cases between with
        | nil =>
          rcases hstart with hstart | ⟨rest', hstart⟩
          · cases hstart
          · exact absurd (List.cons.inj hstart).1 (by decide)
        | cons c between =>
          rcases hstart with hstart | ⟨rest', hstart⟩
          · cases hstart
          · rw [(List.cons.inj hstart).1]
            exact Nat.le_add_left 1 (breaks between)
      rw [hbefore, breaks_append] at hlines
      omega
  · refine iff_of_false ?_ (by omega)
    rw [hrender, ← List.append_assoc] at hfront
    rcases hfirst with ⟨hstart, rfl⟩ | ⟨-, rfl⟩
    · rw [hfront] at hstart ⊢
      have hlast := breaks_lt_of_startsLine (by decide) hstart
      omega
    · have hwhole : breaks (renderPieces front) = _ := congrArg breaks hfront
      rw [List.append_assoc, breaks_append] at hwhole
      omega

/-- A block moves as many lines down as are inserted before it. -/
theorem breaks_beforeContent_moved {b : PlacedBlock} (hb : b ∈ placed [] (front ++ back)) :
    breaks (b.moved (renderPieces front) (renderPieces ins)).beforeContent =
      if byteLength (renderPieces front) ≤ byteLength b.before then
        breaks b.beforeContent + breaks (renderPieces ins)
      else breaks b.beforeContent := by
  rcases mem_placed_cases hb with ⟨between, rest, hbefore, -⟩ | ⟨hlt, -⟩
  · have hle : byteLength (renderPieces front) ≤ byteLength b.before := by
      rw [hbefore, byteLength_append]
      omega
    rw [if_pos hle, PlacedBlock.moved_of_prefix _ _ hbefore]
    unfold PlacedBlock.beforeContent
    rw [hbefore]
    simp only [breaks_append]
    show _ + breaks b.opening = _
    omega
  · rw [if_neg (by omega), PlacedBlock.moved_of_lt _ _ hlt]

/-! ### Components -/

/-- A block that takes no part in a module: a style without a module, or a block of a kind that is not
heard. -/
def WrittenBlock.Unheard (heard : String → Bool) (w : WrittenBlock) : Prop :=
  w.kind = "style" ∧ w.first? "module" = none ∨
    w.kind ≠ "template" ∧ w.kind ≠ "script" ∧ w.kind ≠ "style" ∧ heard w.kind = false

theorem PlacedBlock.role_of_unheard {heard : String → Bool} {b : PlacedBlock}
    (h : b.toWrittenBlock.Unheard heard) :
    b.role = .style ∧ b.first? "module" = none ∨ b.role = .custom ∧ heard b.kind = false := by
  unfold PlacedBlock.role
  rcases h with ⟨hkind, hmodule⟩ | ⟨htemplate, hscript, hstyle, hheard⟩
  · rw [hkind]
    exact .inl ⟨rfl, hmodule⟩
  · rw [if_neg htemplate, if_neg hscript, if_neg hstyle]
    exact .inr ⟨rfl, hheard⟩

/-- The text of a file. -/
def fileText (ps : List Piece) : String := String.ofList (renderPieces ps)

namespace Component

variable {heard : String → Bool} {file source source' : String}

def written (file : String) (ps : List Piece) : Component := ofWritten file (fileText ps) (placed [] ps)

theorem parse_fileText (file : String) {ps : List Piece} (hps : ∀ p ∈ ps, p.Sound) :
    parse (fileText ps) file = written file ps := parse_renderPieces file hps

/-- The first block of a role that only one block has stays the same. -/
theorem find?_role_insert (hins : ∀ w, .block w ∈ ins → w.Unheard heard) {r : Role}
    (hstyle : r ≠ .style) (hcustom : r ≠ .custom) :
    (placed [] (front ++ ins ++ back)).find? (·.role = r) =
      ((placed [] (front ++ back)).find? (·.role = r)).map
        (PlacedBlock.moved (renderPieces front) (renderPieces ins)) := by
  refine find?_placed_insert (fun b => ?_) fun b hb => ?_
  · rw [PlacedBlock.role_moved]
  · rcases PlacedBlock.role_of_unheard (hins _ (mem_of_mem_placed hb)) with ⟨h, -⟩ | ⟨h, -⟩
    · rw [h]
      exact decide_eq_false hstyle.symm
    · rw [h]
      exact decide_eq_false hcustom.symm

theorem template_insert (hins : ∀ w, .block w ∈ ins → w.Unheard heard) :
    (ofWritten file source' (placed [] (front ++ ins ++ back))).template.map
        TemplateBlock.unplaced =
      (ofWritten file source (placed [] (front ++ back))).template.map TemplateBlock.unplaced := by
  unfold ofWritten
  dsimp only
  rw [find?_role_insert hins (by decide) (by decide), Option.map_map, Option.map_map,
    Option.map_map]
  exact congrArg (Option.map · _) (funext fun b => PlacedBlock.unplaced_toTemplate_moved _ _ b)

theorem script_insert (hins : ∀ w, .block w ∈ ins → w.Unheard heard) :
    (ofWritten file source' (placed [] (front ++ ins ++ back))).script.map
        (fun b => b.toBlock.unplaced) =
      (ofWritten file source (placed [] (front ++ back))).script.map fun b => b.toBlock.unplaced := by
  unfold ofWritten
  dsimp only
  rw [find?_role_insert hins (by decide) (by decide), Option.map_map, Option.map_map,
    Option.map_map]
  exact congrArg (Option.map · _) (funext fun b => PlacedBlock.unplaced_toBlock_moved _ _ b)

theorem setupScript_insert (hins : ∀ w, .block w ∈ ins → w.Unheard heard)
    (h : (ofWritten file source (placed [] (front ++ back))).setupScript = none) :
    (ofWritten file source' (placed [] (front ++ ins ++ back))).setupScript = none := by
  unfold ofWritten at h ⊢
  dsimp only at h ⊢
  rw [find?_role_insert hins (by decide) (by decide), Option.map_eq_none_iff.1 h]
  rfl

/-- Whether a component is functional is told by its template and its plain script. -/
theorem isFunctional_congr {c c' : Component}
    (htemplate : c'.template.map TemplateBlock.unplaced = c.template.map TemplateBlock.unplaced)
    (hscript : c'.script.map (fun b => b.toBlock.unplaced) =
      c.script.map fun b => b.toBlock.unplaced) : c'.isFunctional = c.isFunctional := by
  have htold (c : Component) : c.isFunctional =
      ((c.template.map TemplateBlock.unplaced).any (·.functional) ||
        (c.script.map fun b => b.toBlock.unplaced).any
          fun b => mentionsFunctional b.content.toList) := by
    unfold isFunctional
    cases c.template <;> cases c.script <;> rfl
  rw [htold, htold, htemplate, hscript]

/-- The styles of a module are those with the attribute. -/
theorem moduleStyles_ofWritten (bs : List PlacedBlock) :
    (ofWritten file source bs).moduleStyles =
      (bs.filter fun b => (b.first? "module").isSome && decide (b.role = .style)).map
        (·.toStyle) := by
  show ((bs.filter _).map _).filter _ = _
  rw [List.filter_map, List.filter_filter]
  congr 2
  funext b
  show ((Option.map _ (b.first? "module")).isSome && _) = (_ && _)
  rw [Option.isSome_map]

theorem moduleStyles_insert (hins : ∀ w, .block w ∈ ins → w.Unheard heard) :
    (ofWritten file source' (placed [] (front ++ ins ++ back))).moduleStyles.map
        StyleBlock.unplaced =
      (ofWritten file source (placed [] (front ++ back))).moduleStyles.map
        StyleBlock.unplaced := by
  rw [moduleStyles_ofWritten, moduleStyles_ofWritten, filter_placed_insert, List.map_map,
    List.map_map, List.map_map]
  · exact congrArg (List.map · _) (funext fun b => PlacedBlock.unplaced_toStyle_moved _ _ b)
  · intro b
    rw [PlacedBlock.role_moved, PlacedBlock.toWrittenBlock_moved]
  · intro b hb
    rcases PlacedBlock.role_of_unheard (hins _ (mem_of_mem_placed hb)) with ⟨-, h⟩ | ⟨h, -⟩
    · rw [h]
      rfl
    · rw [h, Bool.and_eq_false_iff]
      exact .inr rfl

/-- The custom blocks that are heard stay the same. -/
theorem customBlocks_insert (hins : ∀ w, .block w ∈ ins → w.Unheard heard) :
    ((ofWritten file source' (placed [] (front ++ ins ++ back))).customBlocks.filter
        fun b => heard b.kind).map CustomBlock.unplaced =
      ((ofWritten file source (placed [] (front ++ back))).customBlocks.filter
        fun b => heard b.kind).map CustomBlock.unplaced := by
  have hcustom (source : String) (bs : List PlacedBlock) :
      (ofWritten file source bs).customBlocks.filter (fun b => heard b.kind) =
        (bs.filter fun b => heard b.kind && decide (b.role = .custom)).map (·.toCustom) := by
    show ((bs.filter _).map _).filter _ = _
    rw [List.filter_map, List.filter_filter]
    rfl
  rw [hcustom, hcustom, filter_placed_insert, List.map_map, List.map_map, List.map_map]
  · exact congrArg (List.map · _) (funext fun b => PlacedBlock.unplaced_toCustom_moved _ _ b)
  · intro b
    rw [PlacedBlock.role_moved, PlacedBlock.toWrittenBlock_moved]
  · intro b hb
    rcases PlacedBlock.role_of_unheard (hins _ (mem_of_mem_placed hb)) with ⟨h, -⟩ | ⟨-, h⟩
    · rw [h, Bool.and_eq_false_iff]
      exact .inr rfl
    · rw [h]
      rfl

end Component

end Insertion

end SingleFile
