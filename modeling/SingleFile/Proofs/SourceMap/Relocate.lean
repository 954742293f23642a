import SingleFile.Component.Reader
import SingleFile.Proofs.Order.Stable
import SingleFile.SourceMap.Compose
import SingleFile.SourceMap.Draft

/-!
# Relocated maps

A text whose lines have moved has its maps relocated: each mapping leads to another line of it, and
the text that they embed is another one (`SourceMap.relocate`).  Making a map of entries, composing
maps and drafting code all commute with this.
-/

namespace SingleFile

/-- The same column on another line. -/
def Position.relocate (f : Nat → Nat) (p : Position) : Position := ⟨f p.line, p.column⟩

def MapEntry.relocate (f : Nat → Nat) (e : MapEntry) : MapEntry :=
  { e with original := e.original.relocate f }

def Mapping.relocate (f : Nat → Nat) (m : Mapping) : Mapping :=
  { m with original := m.original.relocate f }

/-- The map with its lines moved, and another text in place of those that it embeds. -/
def SourceMap.relocate (f : Nat → Nat) (text : String) (map : SourceMap) : SourceMap :=
  { map with
    contents := map.contents.map fun c => c.map fun _ => text
    mappings := map.mappings.map (Mapping.relocate f) }

variable (f : Nat → Nat) (text : String)

namespace SourceMap

theorem filterMap_relocate {β : Type} (g : MapEntry → Option β) (hg : ∀ e, g (e.relocate f) = g e)
    (es : List MapEntry) : (es.map (MapEntry.relocate f)).filterMap g = es.filterMap g := by
  rw [List.filterMap_map]
  exact congrArg (List.filterMap · es) (funext hg)

theorem sortMappings_relocate (ms : List Mapping) :
    sortMappings (ms.map (Mapping.relocate f)) = (sortMappings ms).map (Mapping.relocate f) :=
  (map_stableSort (fun _ _ => rfl) ms).symm

theorem ofEntries_relocate (file root : Option String) (es : List MapEntry)
    (contents : List (String × String)) :
    ofEntries file root (es.map (MapEntry.relocate f)) (contents.map fun c => (c.1, text)) =
      (ofEntries file root es contents).relocate f text := by
  have hsources := filterMap_relocate f (·.source) (fun _ => rfl) es
  have hnames := filterMap_relocate f (·.name) (fun _ => rfl) es
  have hkeys : (contents.map fun c => (c.1, text)).map (·.1) = contents.map (·.1) := by
    rw [List.map_map]
    rfl
  have hcontent (s : String) :
      ((contents.map fun c => (c.1, text)).reverse.find? (·.1 == s)).map (·.2) =
        ((contents.reverse.find? (·.1 == s)).map (·.2)).map fun _ => text := by
    rw [← List.map_reverse, List.find?_map, Option.map_map, Option.map_map]
    rfl
  unfold ofEntries relocate
  dsimp only
  rw [hsources, hnames, hkeys]
  congr 1
  · rw [List.map_map]
    exact List.map_congr_left fun s _ => hcontent s
  · rw [← sortMappings_relocate, List.map_map, List.map_map]
    rfl

theorem nearest_relocate (ms : List Mapping) (p : Position) :
    nearest (ms.map (Mapping.relocate f)) p = (nearest ms p).map (Mapping.relocate f) := by
  have hfind : (ms.map (Mapping.relocate f)).find? (fun m => decide (m.generated = p)) =
      (ms.find? fun m => decide (m.generated = p)).map (Mapping.relocate f) := List.find?_map
  have hlast : ((ms.map (Mapping.relocate f)).filter fun m => decide (m.generated < p)).getLast? =
      (ms.filter fun m => decide (m.generated < p)).getLast?.map (Mapping.relocate f) := by
    rw [List.filter_map, List.getLast?_map]
    rfl
  unfold nearest
  rw [hfind, hlast]
  cases ms.find? fun m => decide (m.generated = p) <;> rfl

/-- What a relocated map answers is relocated. -/
theorem original?_relocate (map : SourceMap) (p : Position) :
    (map.relocate f text).original? p =
      (map.original? p).map fun o => { o with position := o.position.relocate f } := by
  unfold original?
  show (nearest (map.mappings.map (Mapping.relocate f)) p).bind _ = _
  rw [nearest_relocate]
  cases nearest map.mappings p with
  | none => rfl
  | some m =>
    show (if m.generated.line = p.line then _ else none) = Option.map _ (if _ then _ else none)
    split
    · unfold originAt
      show (m.source.bind fun i => (map.sourceNames[i]?).bind _) =
        ((m.source.bind fun i => (map.sourceNames[i]?).bind _)).map _
      cases m.source with
      | none => rfl
      | some i =>
        simp only [Option.bind_some]
        cases map.sourceNames[i]? <;> rfl
    · rfl

theorem trace_relocate (map : SourceMap) (e : MapEntry) :
    (map.relocate f text).trace e = (map.trace e).map (MapEntry.relocate f) := by
  unfold trace
  rw [original?_relocate]
  cases e.source with
  | none => rfl
  | some s => cases map.original? e.original <;> rfl

theorem contentAt_relocate (map : SourceMap) (i : Nat) :
    (map.relocate f text).contentAt i = (map.contentAt i).map fun _ => text := by
  unfold contentAt relocate
  dsimp only
  rw [List.getElem?_map]
  rcases map.contents[i]? with _ | _ | c <;> rfl

theorem contentOf_relocate (map : SourceMap) (s : String) :
    (map.relocate f text).contentOf s = (map.contentOf s).map fun _ => text := by
  unfold contentOf
  show (if map.sourceNames.contains s then _ else none) =
    Option.map _ (if map.sourceNames.contains s then _ else none)
  split
  · exact contentAt_relocate f text map _
  · rfl

theorem merge_relocate (old new : SourceMap) :
    (old.relocate f text).merge new = (old.merge new).relocate f text := by
  have htrace : new.entries.filterMap (old.relocate f text).trace =
      (new.entries.filterMap old.trace).map (MapEntry.relocate f) := by
    rw [List.map_filterMap]
    exact congrArg (List.filterMap · _) (funext (trace_relocate f text old))
  have hused (ss : List String) :
      (ss.filterMap fun s => ((old.relocate f text).contentOf s).map (s, ·)) =
        (ss.filterMap fun s => (old.contentOf s).map (s, ·)).map fun c => (c.1, text) := by
    rw [List.map_filterMap]
    refine congrArg (List.filterMap · ss) (funext fun s => ?_)
    rw [contentOf_relocate, Option.map_map, Option.map_map]
    rfl
  unfold merge
  dsimp only
  rw [htrace, filterMap_relocate f (·.source) (fun _ => rfl), hused]
  exact ofEntries_relocate f text _ _ _ _

theorem merge?_relocate (old : SourceMap) (new : Option SourceMap) :
    merge? (some (old.relocate f text)) new = (merge? (some old) new).map (relocate f text) := by
  cases new with
  | none => rfl
  | some new => exact congrArg some (merge_relocate f text old new)

/-- Only the lines that the mappings lead to matter. -/
theorem relocate_congr {f g : Nat → Nat} {map : SourceMap}
    (h : ∀ m ∈ map.mappings, f m.original.line = g m.original.line) :
    map.relocate f text = map.relocate g text := by
  unfold relocate
  congr 1
  refine List.map_congr_left fun m hm => ?_
  unfold Mapping.relocate Position.relocate
  rw [h m hm]

end SourceMap

/-- A content that starts further down has its map relocated. -/
theorem blockMap_relocate (filename source : String) (start k : Nat) (content : List Char) :
    blockMap filename text (start + k) content =
      (blockMap filename source start content).relocate (· + k) text := by
  have hline (row : Nat) (line : List Char) :
      (if isBareLine line then [] else (inkColumns 0 line).map fun column =>
        (⟨⟨row, column⟩, ⟨start + k + row, column⟩, some filename, none⟩ : MapEntry)) =
      (if isBareLine line then [] else (inkColumns 0 line).map fun column =>
        (⟨⟨row, column⟩, ⟨start + row, column⟩, some filename, none⟩ : MapEntry)).map
          (MapEntry.relocate (· + k)) := by
    split
    · rfl
    · rw [List.map_map]
      refine List.map_congr_left fun column _ => ?_
      show MapEntry.mk _ ⟨start + k + row, _⟩ _ _ = MapEntry.mk _ ⟨start + row + k, _⟩ _ _
      rw [Nat.add_right_comm]
  unfold blockMap
  dsimp only
  rw [← SourceMap.ofEntries_relocate, List.map_flatMap]
  exact congrArg (SourceMap.ofEntries (some filename) none · [(filename, text)])
    (congrArg (List.flatMap · _) (funext fun x => hline x.2 x.1))

namespace Draft

/-- The draft with its mappings and the embedded texts relocated. -/
def relocate (d : Draft) : Draft :=
  { d with
    entries := d.entries.map (MapEntry.relocate f)
    contents := d.contents.map fun c => (c.1, text) }

theorem movedEntries_relocate (base : Position) (map : SourceMap) :
    movedEntries base (map.relocate f text) =
      (movedEntries base map).map (MapEntry.relocate f) := by
  have hentries : (map.relocate f text).entries = map.entries.map (MapEntry.relocate f) := by
    show (map.mappings.map (Mapping.relocate f)).map _ = (map.mappings.map _).map _
    rw [List.map_map, List.map_map]
    rfl
  unfold movedEntries
  rw [hentries, List.filter_map, List.map_map, List.map_map]
  rfl

theorem embedded_relocate (map : SourceMap) :
    embedded (map.relocate f text) = (embedded map).map fun c => (c.1, text) := by
  unfold embedded
  rw [List.map_filterMap]
  refine congrArg (List.filterMap · _) (funext fun ⟨s, i⟩ => ?_)
  show Option.map _ ((map.relocate f text).contentAt i) = Option.map _ (Option.map _ _)
  rw [SourceMap.contentAt_relocate, Option.map_map, Option.map_map]
  rfl

theorem addContents_relocate (known more : List (String × String)) :
    addContents (known.map fun c => (c.1, text)) (more.map fun c => (c.1, text)) =
      (addContents known more).map fun c => (c.1, text) := by
  induction more generalizing known with
  | nil => rfl
  | cons c more ih =>
    have hany : (known.map fun c => (c.1, text)).any (·.1 == c.1) = known.any (·.1 == c.1) := by
      rw [List.any_map]
      rfl
    rw [List.map_cons, addContents, addContents, hany]
    split
    · exact ih known
    · rw [← ih, List.map_append]
      rfl

theorem relocate_pushFragment (d : Draft) (code : List Char) (map : Option SourceMap) :
    (d.relocate f text).pushFragment code (map.map (SourceMap.relocate f text)) =
      (d.pushFragment code map).relocate f text := by
  cases map with
  | none => rfl
  | some map =>
    unfold pushFragment relocate push
    dsimp only [Option.map_some]
    rw [movedEntries_relocate, embedded_relocate, addContents_relocate, List.map_append]

theorem relocate_insertBeforeLast? (d : Draft) (pattern inserted : List Char) :
    (d.relocate f text).insertBeforeLast? pattern inserted =
      (d.insertBeforeLast? pattern inserted).map (relocate f text) := by
  have hcode : (d.relocate f text).code = d.code := rfl
  unfold insertBeforeLast?
  rw [hcode]
  cases splitLast? pattern d.code with
  | none => rfl
  | some parts =>
    refine congrArg some ?_
    unfold relocate
    dsimp only
    rw [List.map_map, List.map_map]
    rfl

theorem finish_relocate (d : Draft) (file : Option String) :
    (d.relocate f text).finish file =
      ((d.finish file).1, (d.finish file).2.relocate f text) := by
  have hsort (es : List MapEntry) :
      stableSort (fun a b : MapEntry => decide (a.generated ≤ b.generated))
          (es.map (MapEntry.relocate f)) =
        (stableSort (fun a b => decide (a.generated ≤ b.generated)) es).map (MapEntry.relocate f) :=
    (map_stableSort (fun _ _ => rfl) es).symm
  have hany (es : List MapEntry) (s : String) :
      (es.map (MapEntry.relocate f)).any (·.source == some s) = es.any (·.source == some s) := by
    rw [List.any_map]
    rfl
  unfold finish relocate
  dsimp only
  rw [← SourceMap.ofEntries_relocate, hsort, List.filter_map]
  simp only [hany, Function.comp_def]

end Draft

end SingleFile
