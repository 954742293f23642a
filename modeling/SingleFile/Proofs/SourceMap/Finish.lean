import SingleFile.Proofs.SourceMap.Codec

/-!
# The map of a finished draft

Where the mappings of a draft fit the format, its map is written and read back with the same mappings,
apart from repetitions, and answers like them in order (`Draft.exists_parse_finish`).
-/

namespace SingleFile

/-- A mapping that can be written: it has a source, which is listed like its name, and its numbers
have 32 bits. -/
structure MapEntry.Fits (sources names : List String) (e : MapEntry) : Prop where
  source : ∃ s ∈ sources, e.source = some s
  name : ∀ n ∈ e.name, n ∈ names
  generated : e.generated.column < 2 ^ 32
  original : e.original.line < 2 ^ 32 ∧ e.original.column < 2 ^ 32

namespace Draft

variable {d : Draft} {sources names : List String} {file : Option String}

theorem entries_finish : (d.finish file).2.entries = stableSort MapEntry.le d.entries :=
  (entries_ofEntries file _ _).trans (stableSort_of_ordered (ordered_stableSort d.entries))

/-- The finished map answers from the mappings of the draft, in the order of their positions. -/
theorem original?_finish (p : Position) :
    (d.finish file).2.original? p = resolve (stableSort MapEntry.le d.entries) p := by
  have hrange : ∀ m ∈ (d.finish file).2.mappings, m.range = false := fun _ hm => range_ofEntries hm
  rw [original?_eq_resolve hrange, entries_finish]

section Fits

variable (hentry : ∀ e ∈ d.entries, e.Fits sources names) (hsources : sources.length ≤ 2 ^ 32)
  (hnames : names.length ≤ 2 ^ 32)

include hentry

theorem length_sources_finish : (d.finish file).2.sources.length ≤ sources.length := by
  have hmem : ∀ e ∈ stableSort MapEntry.le d.entries, ∀ s, e.source = some s → s ∈ sources := by
    intro e he s hs
    obtain ⟨s', hs', heq⟩ := (hentry e (mem_stableSort.1 he)).source
    rwa [← Option.some.inj (heq.symm.trans hs)]
  refine length_firstUses_le fun s hs => ?_
  rcases List.mem_append.1 hs with hs | hs
  · obtain ⟨e, he, hes⟩ := List.mem_filterMap.1 hs
    exact hmem e he s hes
  · obtain ⟨c, hc, rfl⟩ := List.mem_map.1 hs
    obtain ⟨e, he, hes⟩ := List.any_eq_true.1 (List.mem_filter.1 hc).2
    exact hmem e he c.1 (by simpa using hes)

theorem length_names_finish : (d.finish file).2.names.length ≤ names.length := by
  refine length_firstUses_le fun s hs => ?_
  obtain ⟨e, he, hes⟩ := List.mem_filterMap.1 hs
  exact (hentry e (mem_stableSort.1 he)).name s hes

include hsources hnames

/-- The map of a draft whose mappings fit can be written. -/
theorem writable_finish : (d.finish file).2.Writable where
  ordered := by
    have hordered : Ordered (d.finish file).2.entries := ordered_ofEntries _ _ _ _
    rw [SourceMap.entries] at hordered
    exact (List.pairwise_map.1 hordered).imp fun hab => hab
  mapping m hm := by
    obtain ⟨e, he, rfl⟩ := List.mem_map.1 (mem_stableSort.1 hm)
    have hfits := hentry e (mem_stableSort.1 he)
    obtain ⟨s, -, hs⟩ := hfits.source
    refine ⟨rfl, ⟨_, congrArg (Option.map _) hs, ?_⟩, fun i hi => ?_, hfits.generated, hfits.original⟩
    · exact List.idxOf_lt_length_of_mem
        (mem_firstUses.2 (List.mem_append_left _ (List.mem_filterMap.2 ⟨e, he, hs⟩)))
    · obtain ⟨n, hn, rfl⟩ := Option.map_eq_some_iff.1 hi
      exact List.idxOf_lt_length_of_mem (mem_firstUses.2 (List.mem_filterMap.2 ⟨e, he, hn⟩))
  sources := (length_sources_finish hentry).trans hsources
  names := (length_names_finish hentry).trans hnames
  ignored := rfl
  debugId := rfl

/-- **What is read of the map of a draft**: its mappings, which answer in the order of their positions. -/
theorem exists_parse_finish : ∃ parsed, SourceMap.parse (d.finish file).2.toJson = .ok parsed ∧
    (∀ e, e ∈ parsed.entries ↔ e ∈ d.entries) ∧
    ∀ p, parsed.original? p = resolve (stableSort MapEntry.le d.entries) p := by
  have hmap : (d.finish file).2.Writable := writable_finish hentry hsources hnames
  refine ⟨_, SourceMap.parse_toJson hmap, fun e => ?_, fun p => ?_⟩
  · rw [SourceMap.entries_readBack, entries_finish, mem_distinctAfter, mem_stableSort]
  · rw [SourceMap.original?_readBack hmap, entries_finish]

end Fits

end Draft

end SingleFile
