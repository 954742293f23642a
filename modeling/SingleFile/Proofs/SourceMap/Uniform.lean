import SingleFile.Proofs.SourceMap.Sources

/-!
# Maps that move whole lines

A composed mapping takes its line from the first map and its column from the second, so composing
three maps depends on the bracketing.  Where the first two are line-uniform it does not: such a map
answers alike in all columns of a line (`LineUniform.lineAnswer_eq_some_iff`), composing keeps this,
and both bracketings keep the same mappings, which may differ in their names only
(`LineUniform.merge_assoc`).
-/

namespace SingleFile

/-! ### Answers without names -/

/-- The entry without its name. -/
def MapEntry.unnamed (e : MapEntry) : MapEntry := { e with name := none }

/-- The answer without its name. -/
def Origin.unnamed (o : Origin) : Origin := { o with name := none }

theorem resolve_map_unnamed (es : List MapEntry) (p : Position) :
    resolve (es.map MapEntry.unnamed) p = (resolve es p).map Origin.unnamed := by
  apply resolve_map
  · intro e
    rfl
  · intro e
    unfold MapEntry.origin?
    rw [Option.map_map]
    rfl

/-- A composition answers from its entries. -/
theorem original?_merge (old new : SourceMap) (p : Position) :
    (SourceMap.merge old new).original? p = resolve (SourceMap.merge old new).entries p :=
  original?_eq_resolve (fun _ hm => range_ofEntries hm) p

/-- What makes entries of entries, where these stand, may be done before or after sorting. -/
theorem filterMap_stableSort_entries {f : MapEntry → Option MapEntry}
    (hf : ∀ e e', f e = some e' → e'.generated = e.generated) (es : List MapEntry) :
    (stableSort MapEntry.le es).filterMap f = stableSort MapEntry.le (es.filterMap f) := by
  have hsplit (xs : List MapEntry) :
      xs.filterMap f = (xs.filter fun e => (f e).isSome).map fun e => (f e).getD e := by
    induction xs with
    | nil => rfl
    | cons x xs ih =>
      cases hx : f x with
      | none => simp [hx, ih]
      | some y => simp [hx, ih]
  have hgenerated (e : MapEntry) : ((f e).getD e).generated = e.generated := by
    cases he : f e with
    | none => rfl
    | some e' => exact hf e e' he
  have hle (a b : MapEntry) : MapEntry.le ((f a).getD a) ((f b).getD b) = MapEntry.le a b := by
    rw [MapEntry.le, hgenerated, hgenerated]
  rw [hsplit, hsplit, filter_stableSort_entries, map_stableSort hle]

namespace SourceMap

/-- A map that moves whole lines: without a root and without ranges, with a source for each mapping,
and on every line with mappings one at its start and all from one line of one source. -/
structure LineUniform (map : SourceMap) : Prop where
  rootless : map.sourceRoot = none
  ordered : Ordered map.entries
  unranged : ∀ m ∈ map.mappings, m.range = false
  sourced : ∀ e ∈ map.entries, e.source.isSome = true
  starts : ∀ e ∈ map.entries, ∃ d ∈ map.entries, d.generated = ⟨e.generated.line, 0⟩
  agree : ∀ d ∈ map.entries, ∀ e ∈ map.entries, d.generated.line = e.generated.line →
    d.source = e.source ∧ d.original.line = e.original.line

instance (map : SourceMap) : Decidable map.LineUniform :=
  decidable_of_iff (map.sourceRoot = none ∧ Ordered map.entries ∧
      (∀ m ∈ map.mappings, m.range = false) ∧ (∀ e ∈ map.entries, e.source.isSome = true) ∧
      (∀ e ∈ map.entries, ∃ d ∈ map.entries, d.generated = ⟨e.generated.line, 0⟩) ∧
      ∀ d ∈ map.entries, ∀ e ∈ map.entries, d.generated.line = e.generated.line →
        d.source = e.source ∧ d.original.line = e.original.line)
    ⟨fun ⟨hroot, hordered, hunranged, hsourced, hstarts, hagree⟩ =>
      ⟨hroot, hordered, hunranged, hsourced, hstarts, hagree⟩,
    fun h => ⟨h.rootless, h.ordered, h.unranged, h.sourced, h.starts, h.agree⟩⟩

def lineAnswer (map : SourceMap) (p : Position) : Option (String × Nat) :=
  (map.original? p).map fun o => (o.source, o.position.line)

namespace LineUniform

variable {map a b : SourceMap} {p q : Position} {s : String} {k : Nat}

/-- A line-uniform map answers in all columns of a line with what its mappings on the line say. -/
theorem lineAnswer_eq_some_iff (h : map.LineUniform) : map.lineAnswer p = some (s, k) ↔
    ∃ e ∈ map.entries, e.generated.line = p.line ∧ e.source = some s ∧ e.original.line = k := by
  have horigin {e : MapEntry} {o : Origin} (ho : e.origin? = some o) :
      e.source = some o.source ∧ e.original = o.position := by
    obtain ⟨s, hs, rfl⟩ := Option.map_eq_some_iff.1 ho
    exact ⟨hs, rfl⟩
  unfold lineAnswer
  rw [original?_eq_resolve h.unranged]
  constructor
  · intro hanswer
    obtain ⟨o, ho, heq⟩ := Option.map_eq_some_iff.1 hanswer
    obtain ⟨rfl, rfl⟩ := Prod.mk.inj heq
    obtain ⟨e, he, hline, -, hsays⟩ := exists_of_resolve ho
    obtain ⟨hsource, horiginal⟩ := horigin hsays
    exact ⟨e, he, hline, hsource, by rw [horiginal]⟩
  · rintro ⟨e, he, hline, hsource, rfl⟩
    obtain ⟨d, hd, hstart⟩ := h.starts e he
    have hle : d.generated ≤ p := by
      rw [hstart, Position.le_iff]
      exact .inr ⟨hline, Nat.zero_le _⟩
    obtain ⟨o, ho⟩ := exists_resolve h.ordered h.sourced hd (by rw [hstart, hline]) hle
    obtain ⟨e', he', hline', -, hsays⟩ := exists_of_resolve ho
    obtain ⟨hsource', horiginal'⟩ := horigin hsays
    obtain ⟨hs, hk⟩ := h.agree e' he' e he (hline'.trans hline.symm)
    rw [ho, Option.map_some, ← horiginal', hk]
    rw [hsource', hsource] at hs
    rw [Option.some.inj hs]

/-- In a line all columns answer alike. -/
theorem lineAnswer_congr (h : map.LineUniform) (hline : p.line = q.line) :
    map.lineAnswer p = map.lineAnswer q := by
  refine Option.ext fun ⟨s, k⟩ => ?_
  rw [h.lineAnswer_eq_some_iff, h.lineAnswer_eq_some_iff, hline]

theorem exists_of_mem_merge (ha : a.LineUniform) {e : MapEntry} (he : e ∈ (merge a b).entries) :
    ∃ x ∈ b.entries, x.generated = e.generated ∧ e.source.isSome = true ∧
      a.lineAnswer x.original = e.source.map (·, e.original.line) := by
  obtain ⟨x, hx, htrace⟩ := (mem_entries_merge ha.rootless).1 he
  obtain ⟨-, o, ho, rfl⟩ := trace_eq_some_iff.1 htrace
  exact ⟨x, hx, rfl, rfl, by rw [lineAnswer, ho]; rfl⟩

theorem exists_mem_merge (ha : a.LineUniform) (hb : b.LineUniform) {x : MapEntry}
    (hx : x ∈ b.entries) (hanswer : a.lineAnswer x.original = some (s, k)) :
    ∃ e ∈ (merge a b).entries, e.generated = x.generated ∧ e.source = some s ∧
      e.original.line = k := by
  obtain ⟨o, ho, heq⟩ := Option.map_eq_some_iff.1 hanswer
  obtain ⟨rfl, rfl⟩ := Prod.mk.inj heq
  exact ⟨x.composedWith o, (mem_entries_merge ha.rootless).2
    ⟨x, hx, trace_eq_some_iff.2 ⟨hb.sourced x hx, o, ho, rfl⟩⟩, rfl, rfl, rfl⟩

/-- Composing line-uniform maps gives one. -/
protected theorem merge (ha : a.LineUniform) (hb : b.LineUniform) : (merge a b).LineUniform where
  rootless := ha.rootless
  ordered := ordered_ofEntries _ _ _ _
  unranged m hm := range_ofEntries hm
  sourced e he := by
    obtain ⟨-, -, -, hsourced, -⟩ := ha.exists_of_mem_merge he
    exact hsourced
  starts e he := by
    obtain ⟨x, hx, hgenerated, hsourced, hanswer⟩ := ha.exists_of_mem_merge he
    obtain ⟨d, hd, hstart⟩ := hb.starts x hx
    have hline : d.original.line = x.original.line :=
      (hb.agree d hd x hx (by rw [hstart])).2
    obtain ⟨s, hs⟩ := Option.isSome_iff_exists.1 hsourced
    rw [ha.lineAnswer_congr hline.symm, hs] at hanswer
    obtain ⟨d', hd', hgenerated', -⟩ := exists_mem_merge ha hb hd hanswer
    exact ⟨d', hd', by rw [hgenerated', hstart, hgenerated]⟩
  agree d hd e he hline := by
    obtain ⟨x, hx, hxgenerated, hdsourced, hxanswer⟩ := ha.exists_of_mem_merge hd
    obtain ⟨y, hy, hygenerated, hesourced, hyanswer⟩ := ha.exists_of_mem_merge he
    have hxy := (hb.agree x hx y hy (by rw [hxgenerated, hygenerated, hline])).2
    obtain ⟨s, hs⟩ := Option.isSome_iff_exists.1 hdsourced
    obtain ⟨t, ht⟩ := Option.isSome_iff_exists.1 hesourced
    rw [ha.lineAnswer_congr hxy, hyanswer, hs, ht] at hxanswer
    obtain ⟨rfl, heq⟩ := Prod.mk.inj (Option.some.inj hxanswer)
    exact ⟨hs.trans ht.symm, heq.symm⟩

/-- The composition answers for a line with what the first map answers for the line that the second
one leads to. -/
theorem lineAnswer_merge (ha : a.LineUniform) (hb : b.LineUniform) (p : Position) :
    (merge a b).lineAnswer p = (b.lineAnswer p).bind fun x => a.lineAnswer ⟨x.2, p.column⟩ := by
  refine Option.ext fun ⟨s, k⟩ => ?_
  rw [(ha.merge hb).lineAnswer_eq_some_iff, Option.bind_eq_some_iff]
  constructor
  · rintro ⟨e, he, hline, hs, rfl⟩
    obtain ⟨x, hx, hgenerated, -, hanswer⟩ := ha.exists_of_mem_merge he
    obtain ⟨t, ht⟩ := Option.isSome_iff_exists.1 (hb.sourced x hx)
    refine ⟨(t, x.original.line), hb.lineAnswer_eq_some_iff.2
      ⟨x, hx, by rw [hgenerated, hline], ht, rfl⟩, ?_⟩
    rw [ha.lineAnswer_congr (p := ⟨x.original.line, p.column⟩) (q := x.original) rfl, hanswer, hs]
    rfl
  · rintro ⟨⟨t, l⟩, hb', ha'⟩
    obtain ⟨x, hx, hline, -, rfl⟩ := hb.lineAnswer_eq_some_iff.1 hb'
    rw [ha.lineAnswer_congr (p := ⟨x.original.line, p.column⟩) (q := x.original) rfl] at ha'
    obtain ⟨e, he, hgenerated, hs, hk⟩ := exists_mem_merge ha hb hx ha'
    exact ⟨e, he, by rw [hgenerated, hline], hs, hk⟩

end LineUniform

/-- Without its name, a traced mapping shows what the map answers for its line. -/
theorem map_unnamed_trace (map : SourceMap) (e : MapEntry) :
    (map.trace e).map MapEntry.unnamed = e.source.bind fun _ =>
      (map.lineAnswer e.original).map fun x =>
        ⟨e.generated, ⟨x.2, e.original.column⟩, some x.1, none⟩ := by
  rw [trace_eq, lineAnswer]
  cases e.source with
  | none => rfl
  | some s => cases map.original? e.original <;> rfl

namespace LineUniform

variable {a b : SourceMap}

/-- A mapping that is traced through a composition is traced through its two maps in turn. -/
theorem trace_merge (ha : a.LineUniform) (hb : b.LineUniform) (e : MapEntry) :
    ((merge a b).trace e).map MapEntry.unnamed =
      ((b.trace e).bind a.trace).map MapEntry.unnamed := by
  have hturns (o : Origin) : (a.trace (e.composedWith o)).map MapEntry.unnamed =
      (a.lineAnswer ⟨o.position.line, e.original.column⟩).map fun x =>
        ⟨e.generated, ⟨x.2, e.original.column⟩, some x.1, none⟩ := by
    rw [map_unnamed_trace]
    rfl
  rw [map_unnamed_trace, ha.lineAnswer_merge hb, trace_eq, lineAnswer]
  cases e.source with
  | none => rfl
  | some s =>
    cases b.original? e.original with
    | none => rfl
    | some o => exact (hturns o).symm

/-- **Composing is associative on line-uniform maps**, up to names: composing two such maps gives one
again, both bracketings have the same mappings in the same order, and each position resolves alike. -/
theorem merge_assoc (ha : a.LineUniform) (hb : b.LineUniform) (c : SourceMap) :
    (merge a b).LineUniform ∧
      (merge (merge a b) c).entries.map MapEntry.unnamed =
        (merge a (merge b c)).entries.map MapEntry.unnamed ∧
      ∀ p, ((merge (merge a b) c).original? p).map Origin.unnamed =
        ((merge a (merge b c)).original? p).map Origin.unnamed := by
  have hle (d e : MapEntry) : MapEntry.le d.unnamed e.unnamed = MapEntry.le d e := rfl
  have hentries : (merge (merge a b) c).entries.map MapEntry.unnamed =
      (merge a (merge b c)).entries.map MapEntry.unnamed := by
    rw [entries_merge (ha.merge hb).rootless, entries_merge ha.rootless, entries_merge hb.rootless,
      filterMap_stableSort_entries (fun _ _ => generated_of_trace),
      stableSort_of_ordered (ordered_stableSort _), map_stableSort hle, map_stableSort hle,
      List.filterMap_filterMap, List.map_filterMap, List.map_filterMap]
    exact congrArg _ (congrArg (List.filterMap · c.entries) (funext (ha.trace_merge hb)))
  refine ⟨ha.merge hb, hentries, fun p => ?_⟩
  rw [original?_merge, original?_merge, ← resolve_map_unnamed, hentries, resolve_map_unnamed]

end LineUniform

/-- A map without a root and without contents. -/
def bareMap (source : String) (names : List String) (mappings : List Mapping) : SourceMap where
  file := none
  sourceRoot := none
  sources := [source]
  contents := []
  names
  mappings
  ignored := []
  debugId := none

/-- Two lines of one file, the first one with two names. -/
def firstSteps : SourceMap :=
  bareMap "App.vue" ["left", "right"]
    [⟨⟨0, 0⟩, ⟨3, 0⟩, some 0, some 0, false⟩, ⟨⟨0, 4⟩, ⟨3, 8⟩, some 0, some 1, false⟩,
      ⟨⟨1, 0⟩, ⟨5, 2⟩, some 0, none, false⟩]

/-- Lines in another order, at other columns, and one that the first map does not know. -/
def secondSteps : SourceMap :=
  bareMap "block.js" []
    [⟨⟨0, 0⟩, ⟨1, 7⟩, some 0, none, false⟩, ⟨⟨0, 3⟩, ⟨1, 1⟩, some 0, none, false⟩,
      ⟨⟨2, 0⟩, ⟨0, 9⟩, some 0, none, false⟩, ⟨⟨4, 0⟩, ⟨8, 0⟩, some 0, none, false⟩]

/-- A map that starts no line at its start and mixes the lines of another. -/
def thirdSteps : SourceMap :=
  bareMap "module.js" []
    [⟨⟨0, 2⟩, ⟨2, 1⟩, some 0, none, false⟩, ⟨⟨0, 5⟩, ⟨0, 4⟩, some 0, none, false⟩,
      ⟨⟨1, 1⟩, ⟨4, 0⟩, some 0, none, false⟩, ⟨⟨1, 3⟩, ⟨0, 0⟩, none, none, false⟩]

/-- Three maps on which the bracketings agree, but for a name. -/
theorem merge_assoc_threeSteps :
    (merge (merge firstSteps secondSteps) thirdSteps).entries.map MapEntry.unnamed =
        (merge firstSteps (merge secondSteps thirdSteps)).entries.map MapEntry.unnamed ∧
      (merge (merge firstSteps secondSteps) thirdSteps).entries =
        [⟨⟨0, 2⟩, ⟨3, 1⟩, some "App.vue", some "right"⟩, ⟨⟨0, 5⟩, ⟨5, 4⟩, some "App.vue", none⟩] ∧
      (merge firstSteps (merge secondSteps thirdSteps)).entries =
        [⟨⟨0, 2⟩, ⟨3, 1⟩, some "App.vue", some "left"⟩, ⟨⟨0, 5⟩, ⟨5, 4⟩, some "App.vue", none⟩] :=
  have hfirst : firstSteps.LineUniform := by decide +kernel
  have hsecond : secondSteps.LineUniform := by decide +kernel
  ⟨(LineUniform.merge_assoc hfirst hsecond thirdSteps).2.1, by decide +kernel, by decide +kernel⟩

end SourceMap

end SingleFile
