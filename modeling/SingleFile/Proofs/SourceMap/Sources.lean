import Mathlib.Algebra.Order.BigOperators.Group.List
import Mathlib.Algebra.Order.Group.Nat
import SingleFile.Proofs.SourceMap.Compose
import SingleFile.Proofs.Text.Search

/-!
# The sources of a composed map

The sources that a map reports stand under its root.  Composing two maps lists what the first one
reports under the same root once more, so the answers of the composition are those of the two maps
with each source under the root again (`composes_merge`).  They are the answers of the two maps
themselves only where this changes no name, as without a root or with absolute names.
-/

namespace SingleFile

/-! ### Absolute names -/

/-- A name that a root leaves alone. -/
def absolute (name : String) : Bool :=
  (stripPrefix? ['/'] name.toList).isSome || (stripPrefix? "http:".toList name.toList).isSome ||
    (stripPrefix? "https:".toList name.toList).isSome

/-- A root without the slash at its end. -/
def stem (root : String) : List Char :=
  if root.toList.getLast? = some '/' then root.toList.dropLast else root.toList

theorem underRoot_of_absolute {root name : String} (h : absolute name = true) :
    underRoot root name = name := if_pos h

theorem toList_underRoot {root name : String} (h : absolute name = false) :
    (underRoot root name).toList = stem root ++ '/' :: name.toList := by
  have hname : underRoot root name = String.ofList (stem root ++ '/' :: name.toList) :=
    if_neg (Bool.eq_false_iff.1 h)
  rw [hname, String.toList_ofList]

/-- Whether a text starts with a pattern shows at its first slash. -/
theorem isPrefix_append_slash {p : List Char} (hp : '/' ∉ p.dropLast) (r cs : List Char) :
    p <+: r ++ '/' :: cs ↔ p <+: r ++ ['/'] := by
  induction r generalizing p with
  | nil =>
    rcases p with _ | ⟨a, _ | ⟨b, p⟩⟩
    · simp
    · simp [List.cons_prefix_cons]
    · have ha : a ≠ '/' := by
        rintro rfl
        exact hp (by simp)
      simp [List.cons_prefix_cons, ha]
  | cons c r ih =>
    rcases p with _ | ⟨a, p⟩
    · simp
    · rw [List.cons_append, List.cons_append, List.cons_prefix_cons, List.cons_prefix_cons,
        ih fun h => hp ?_]
      rcases p with _ | ⟨b, p⟩
      · exact absurd h (by simp)
      · exact List.mem_cons_of_mem _ h

/-- What stands under a root is absolute where the root is. -/
theorem absolute_underRoot_congr {root a b : String} (ha : absolute a = false)
    (hb : absolute b = false) : absolute (underRoot root a) = absolute (underRoot root b) := by
  have hstrip {p : List Char} (hp : '/' ∉ p.dropLast) :
      (stripPrefix? p (stem root ++ '/' :: a.toList)).isSome =
        (stripPrefix? p (stem root ++ '/' :: b.toList)).isSome := by
    rw [Bool.eq_iff_iff, isSome_stripPrefix?_iff, isSome_stripPrefix?_iff,
      isPrefix_append_slash hp, isPrefix_append_slash hp (stem root) b.toList]
  unfold absolute
  rw [toList_underRoot ha, toList_underRoot hb, hstrip (by decide), hstrip (by decide),
    hstrip (by decide)]

namespace SourceMap

/-- A root that changes no name. -/
def Rootless (root : Option String) : Prop := root.all (·.isEmpty) = true

theorem rooted_of_rootless {root : Option String} (h : Rootless root) (name : String) :
    rooted root name = name := by
  cases root with
  | none => rfl
  | some root => exact if_pos h

theorem rooted_of_absolute {name : String} (h : absolute name = true) (root : Option String) :
    rooted root name = name := by
  cases root with
  | none => rfl
  | some root =>
    show (if root.isEmpty then name else underRoot root name) = name
    rw [underRoot_of_absolute h, ite_self]

/-- A root that counts prefixes every name that is not absolute. -/
theorem exists_rooted_eq {root : Option String} (h : ¬ Rootless root) :
    ∃ r, rooted root = underRoot r := by
  cases root with
  | none => exact absurd rfl h
  | some root => exact ⟨root, funext fun _ => if_neg h⟩

variable {map old new merged : SourceMap} {e : MapEntry}

/-- What a map reports stays absolute, or not, under its root. -/
theorem absolute_rooted_of_mem {s : String} (hs : s ∈ map.sourceNames) :
    absolute (rooted map.sourceRoot s) = absolute s := by
  rw [sourceNames_eq_map] at hs
  obtain ⟨raw, -, rfl⟩ := List.mem_map.1 hs
  by_cases hroot : Rootless map.sourceRoot
  · rw [rooted_of_rootless hroot, rooted_of_rootless hroot]
  · obtain ⟨r, hr⟩ := exists_rooted_eq hroot
    rw [hr]
    cases hraw : absolute raw with
    | true => rw [underRoot_of_absolute hraw, underRoot_of_absolute hraw]
    | false =>
      cases habs : absolute (underRoot r raw) with
      | true => rw [underRoot_of_absolute habs, habs]
      | false => rw [← habs, absolute_underRoot_congr habs hraw]

/-- Two names that a map reports stay apart under its root. -/
theorem rooted_injOn {s t : String} (hs : s ∈ map.sourceNames) (ht : t ∈ map.sourceNames)
    (h : rooted map.sourceRoot s = rooted map.sourceRoot t) : s = t := by
  by_cases hroot : Rootless map.sourceRoot
  · rwa [rooted_of_rootless hroot, rooted_of_rootless hroot] at h
  · have habs : absolute s = absolute t := by
      rw [← absolute_rooted_of_mem hs, ← absolute_rooted_of_mem ht, h]
    obtain ⟨r, hr⟩ := exists_rooted_eq hroot
    rw [hr] at h
    cases hsabs : absolute s with
    | true => rwa [underRoot_of_absolute hsabs, underRoot_of_absolute (habs ▸ hsabs)] at h
    | false =>
      have htoList := congrArg String.toList h
      rw [toList_underRoot hsabs, toList_underRoot (habs ▸ hsabs), List.append_cancel_left_eq] at htoList
      exact String.toList_inj.1 (List.cons.inj htoList).2

/-! ### What a map answers with -/

/-- The answers of a map name sources that it reports. -/
theorem mem_sourceNames_of_original? {p : Position} {o : Origin} (h : map.original? p = some o) :
    o.source ∈ map.sourceNames := by
  obtain ⟨m, -, h⟩ := Option.bind_eq_some_iff.1 h
  obtain ⟨-, horigin⟩ := Option.ite_none_right_eq_some.1 h
  obtain ⟨i, -, hrest⟩ := Option.bind_eq_some_iff.1 horigin
  obtain ⟨s, hs, hpure⟩ := Option.bind_eq_some_iff.1 hrest
  rw [← Option.some.inj hpure]
  exact List.mem_of_getElem? hs

end SourceMap

/-- What composing makes of a mapping of the second map and the answer of the first: the place and
the column of the one, the source, the line and the name of the other. -/
def MapEntry.composedWith (e : MapEntry) (o : Origin) : MapEntry where
  generated := e.generated
  original := ⟨o.position.line, e.original.column⟩
  source := some o.source
  name := o.name

namespace SourceMap

variable {map old new merged : SourceMap} {e e' : MapEntry}

theorem trace_eq (old : SourceMap) (e : MapEntry) :
    old.trace e = e.source.bind fun _ => (old.original? e.original).map e.composedWith := by
  unfold trace
  cases e.source with
  | none => rfl
  | some s => cases old.original? e.original <;> rfl

theorem trace_eq_some_iff : old.trace e = some e' ↔
    e.source.isSome = true ∧ ∃ o, old.original? e.original = some o ∧ e' = e.composedWith o := by
  rw [trace_eq, Option.bind_eq_some_iff, exists_and_right, ← Option.isSome_iff_exists,
    Option.map_eq_some_iff]
  exact and_congr_right' (exists_congr fun o => and_congr_right' eq_comm)

/-- The sources that composing two maps comes across. -/
def tracedSources (old new : SourceMap) : List String :=
  (new.entries.filterMap old.trace).filterMap (·.source)

theorem mem_tracedSources {s : String} : s ∈ tracedSources old new ↔
    ∃ x ∈ new.entries, x.source.isSome = true ∧ ∃ o, old.original? x.original = some o ∧
      o.source = s := by
  unfold tracedSources
  constructor
  · intro h
    obtain ⟨e, he, hs⟩ := List.mem_filterMap.1 h
    obtain ⟨x, hx, htrace⟩ := List.mem_filterMap.1 he
    obtain ⟨hsource, o, ho, rfl⟩ := trace_eq_some_iff.1 htrace
    exact ⟨x, hx, hsource, o, ho, Option.some.inj hs⟩
  · rintro ⟨x, hx, hsource, o, ho, rfl⟩
    exact List.mem_filterMap.2 ⟨x.composedWith o,
      List.mem_filterMap.2 ⟨x, hx, trace_eq_some_iff.2 ⟨hsource, o, ho, rfl⟩⟩, rfl⟩

theorem mem_sourceNames_of_traced {s : String} (h : s ∈ tracedSources old new) :
    s ∈ old.sourceNames := by
  obtain ⟨x, -, -, o, ho, rfl⟩ := mem_tracedSources.1 h
  exact mem_sourceNames_of_original? ho

/-! ### The composition -/

theorem mem_entries_merge_iff : e ∈ (merge old new).entries ↔
    ∃ x ∈ new.entries, x.source.isSome = true ∧ ∃ o, old.original? x.original = some o ∧
      e = (x.composedWith o).rename (rooted old.sourceRoot) := by
  unfold merge
  rw [entries_ofEntries_rooted, mem_stableSort, List.mem_map]
  constructor
  · rintro ⟨e', he', rfl⟩
    obtain ⟨x, hx, htrace⟩ := List.mem_filterMap.1 he'
    obtain ⟨hsource, o, ho, rfl⟩ := trace_eq_some_iff.1 htrace
    exact ⟨x, hx, hsource, o, ho, rfl⟩
  · rintro ⟨x, hx, hsource, o, ho, rfl⟩
    exact ⟨x.composedWith o,
      List.mem_filterMap.2 ⟨x, hx, trace_eq_some_iff.2 ⟨hsource, o, ho, rfl⟩⟩, rfl⟩

/-- Composing lists no source for its content alone. -/
theorem mem_sources_merge {s : String} :
    s ∈ (merge old new).sources ↔ s ∈ tracedSources old new := by
  show s ∈ firstUses (tracedSources old new ++ _) ↔ _
  rw [mem_firstUses, List.mem_append, or_iff_left_iff_imp]
  intro hs
  obtain ⟨c, hc, rfl⟩ := List.mem_map.1 hs
  obtain ⟨t, ht, hcontent⟩ := List.mem_filterMap.1 hc
  obtain ⟨_, -, rfl⟩ := Option.map_eq_some_iff.1 hcontent
  exact mem_firstUses.1 ht

theorem mem_sourceNames_merge {s : String} :
    s ∈ (merge old new).sourceNames ↔ ∃ t ∈ tracedSources old new, rooted old.sourceRoot t = s := by
  rw [sourceNames_eq_map, List.mem_map]
  exact exists_congr fun t => and_congr_left' mem_sources_merge

/-- A map made of entries embeds the content given for a source, where no other source is reported
under the same name. -/
theorem contentOf_ofEntries {file root : Option String} {es : List MapEntry}
    {contents : List (String × String)} {s : String}
    (hs : s ∈ (ofEntries file root es contents).sources)
    (hinj : ∀ t ∈ (ofEntries file root es contents).sources, rooted root t = rooted root s → t = s) :
    (ofEntries file root es contents).contentOf (rooted root s) =
      (contents.reverse.find? (·.1 == s)).map (·.2) := by
  generalize hmap : ofEntries file root es contents = map at hs hinj ⊢
  have hroot : map.sourceRoot = root := by rw [← hmap]; rfl
  have hcontents : map.contents =
      map.sources.map fun s => (contents.reverse.find? (·.1 == s)).map (·.2) := by rw [← hmap]; rfl
  have hmem : rooted root s ∈ map.sources.map (rooted root) := List.mem_map_of_mem hs
  have hlt := List.idxOf_lt_length_of_mem hmem
  have hlt' : (map.sources.map (rooted root)).idxOf (rooted root s) < map.sources.length := by
    rwa [List.length_map] at hlt
  have hget : map.sources[(map.sources.map (rooted root)).idxOf (rooted root s)] = s := by
    refine hinj _ (List.getElem_mem _) ?_
    rw [← List.getElem_map (rooted root) (h := hlt)]
    exact List.getElem_idxOf hlt
  unfold contentOf contentAt
  rw [sourceNames_eq_map, hroot, hcontents]
  dsimp only
  rw [if_pos (List.contains_iff_mem.2 hmem), List.getElem?_map, List.getElem?_eq_getElem hlt', hget]
  rfl

/-- The content kept for a source of a composition is the one of the first map. -/
theorem find?_contents (used : List String) {s : String} (hs : s ∈ used) :
    (((used.filterMap fun s => (old.contentOf s).map (s, ·)).reverse.find? (·.1 == s)).map (·.2)) =
      old.contentOf s := by
  have hkept (c : String × String)
      (hc : c ∈ (used.filterMap fun s => (old.contentOf s).map (s, ·)).reverse) :
      old.contentOf c.1 = some c.2 := by
    obtain ⟨t, -, ht⟩ := List.mem_filterMap.1 (List.mem_reverse.1 hc)
    obtain ⟨c, hcontent, rfl⟩ := Option.map_eq_some_iff.1 ht
    exact hcontent
  cases hfind : (used.filterMap fun s => (old.contentOf s).map (s, ·)).reverse.find? (·.1 == s) with
  | some c =>
    have heq : c.1 = s := by simpa using List.find?_some hfind
    rw [← heq, hkept c (List.mem_of_find?_eq_some hfind)]
    rfl
  | none =>
    cases hcontent : old.contentOf s with
    | none => rfl
    | some c =>
      have hmem : (s, c) ∈ (used.filterMap fun s => (old.contentOf s).map (s, ·)).reverse :=
        List.mem_reverse.2 (List.mem_filterMap.2 ⟨s, hs, by rw [hcontent]; rfl⟩)
      exact absurd (List.find?_eq_none.1 hfind _ hmem) (by simp)

theorem contentOf_merge {s : String} (hs : s ∈ tracedSources old new) :
    (merge old new).contentOf (rooted old.sourceRoot s) = old.contentOf s := by
  refine (contentOf_ofEntries (mem_sources_merge.2 hs) fun t ht heq => ?_).trans
    (find?_contents _ (mem_firstUses.2 hs))
  exact rooted_injOn (mem_sourceNames_of_traced (mem_sources_merge.1 ht))
    (mem_sourceNames_of_traced hs) heq

/-- What is expected of the composition of two maps that calls the sources of the first one by new
names: its mappings are those of the second map that the first one answers, with these answers, and
its sources are sources of the first one, with their contents. -/
structure Composes (named : String → String) (old new merged : SourceMap) : Prop where
  entries : ∀ e, e ∈ merged.entries ↔ ∃ x ∈ new.entries, x.source.isSome = true ∧
    ∃ o, old.original? x.original = some o ∧ e = (x.composedWith o).rename named
  sources : ∀ s ∈ merged.sourceNames, ∃ t ∈ old.sourceNames, named t = s
  contents : ∀ t ∈ old.sourceNames, named t ∈ merged.sourceNames →
    merged.contentOf (named t) = old.contentOf t

/-- Under any names that agree with the root on what is traced, composing does what is expected. -/
theorem composes_of_forall {f : String → String}
    (hf : ∀ s ∈ tracedSources old new, rooted old.sourceRoot s = f s)
    (hinj : ∀ s ∈ old.sourceNames, ∀ t ∈ old.sourceNames, f s = f t → s = t) :
    Composes f old new (merge old new) where
  entries e := by
    rw [mem_entries_merge_iff]
    refine exists_congr fun x => and_congr_right fun hx => and_congr_right fun hsource =>
      exists_congr fun o => and_congr_right fun ho => ?_
    have heq := hf o.source (mem_tracedSources.2 ⟨x, hx, hsource, o, ho, rfl⟩)
    show e = ⟨_, _, some (rooted _ o.source), _⟩ ↔ e = ⟨_, _, some (f o.source), _⟩
    rw [heq]
  sources s hs := by
    obtain ⟨t, ht, rfl⟩ := mem_sourceNames_merge.1 hs
    exact ⟨t, mem_sourceNames_of_traced ht, (hf t ht).symm⟩
  contents t ht hmem := by
    obtain ⟨t', ht', heq⟩ := mem_sourceNames_merge.1 hmem
    rw [hf t' ht'] at heq
    obtain rfl := hinj t' (mem_sourceNames_of_traced ht') t ht heq
    rw [← hf t' ht']
    exact contentOf_merge ht'

/-- Where the composition names what is traced as the first map does, the name under the root of
every traced source is traced too. -/
theorem rooted_mem_tracedSources (h : Composes id old new (merge old new)) {s : String}
    (hs : s ∈ tracedSources old new) : rooted old.sourceRoot s ∈ tracedSources old new := by
  obtain ⟨x, hx, hsource, o, ho, rfl⟩ := mem_tracedSources.1 hs
  obtain ⟨y, hy, hysource, o', ho', heq⟩ :=
    (h.entries _).1 (mem_entries_merge_iff.2 ⟨x, hx, hsource, o, ho, rfl⟩)
  refine mem_tracedSources.2 ⟨y, hy, hysource, o', ho', ?_⟩
  exact (Option.some.inj (congrArg MapEntry.source heq)).symm

/-- Then all that is traced is absolute, as names would get longer without end. -/
theorem absolute_of_composes (h : Composes id old new (merge old new))
    (hroot : ¬ Rootless old.sourceRoot) {s : String} (hs : s ∈ tracedSources old new) :
    absolute s = true := by
  obtain ⟨r, hr⟩ := exists_rooted_eq hroot
  by_contra hnot
  have hlong (n : Nat) :
      ∃ t ∈ tracedSources old new, absolute t = false ∧ n ≤ t.toList.length := by
    induction n with
    | zero => exact ⟨s, hs, Bool.eq_false_iff.2 hnot, Nat.zero_le _⟩
    | succ n ih =>
      obtain ⟨t, ht, habs, hn⟩ := ih
      refine ⟨_, rooted_mem_tracedSources h ht, ?_, ?_⟩
      · rw [absolute_rooted_of_mem (mem_sourceNames_of_traced ht), habs]
      · rw [hr, toList_underRoot habs, List.length_append, List.length_cons]
        omega
  obtain ⟨t, ht, -, hn⟩ :=
    hlong (((tracedSources old new).map fun t => t.toList.length).sum + 1)
  have hle := List.le_sum_of_mem (List.mem_map_of_mem (f := fun t => t.toList.length) ht)
  omega

/-- **Composing is sound in its sources, under the root.**  What is expected of a composition holds
with every source of the first map under the root of this map, which its sources stand under already.
It holds with the sources as the first map reports them just when there is no root or all sources
that are traced are absolute. -/
theorem composes_merge (old new : SourceMap) :
    Composes (rooted old.sourceRoot) old new (merge old new) ∧
      (Composes id old new (merge old new) ↔
        Rootless old.sourceRoot ∨ ∀ s ∈ tracedSources old new, absolute s = true) := by
  refine ⟨composes_of_forall (fun _ _ => rfl) fun s hs t ht => rooted_injOn hs ht, ?_, ?_⟩
  · intro h
    exact or_iff_not_imp_left.2 fun hroot s hs => absolute_of_composes h hroot hs
  · rintro (hroot | habs)
    · exact composes_of_forall (fun s _ => rooted_of_rootless hroot s) fun s _ t _ h => h
    · exact composes_of_forall (fun s hs => rooted_of_absolute (habs s hs) _) fun s _ t _ h => h

/-- A map whose one source stands under a root. -/
def rootedSample : SourceMap where
  file := none
  sourceRoot := some "src"
  sources := ["a.js"]
  contents := [some "let a"]
  names := []
  mappings := [⟨.origin, .origin, some 0, none, false⟩]
  ignored := []
  debugId := none

/-- A map of a second step. -/
def secondSample : SourceMap :=
  { rootedSample with sourceRoot := none, sources := ["b.js"], contents := [] }

/-- A root is put in front of a source twice, so that the composition names a source that the first
map does not have. -/
theorem not_composes_rootedSample :
    rootedSample.sourceNames = ["src/a.js"] ∧
      (merge rootedSample secondSample).sourceNames = ["src/src/a.js"] ∧
      ¬ Composes id rootedSample secondSample (merge rootedSample secondSample) := by
  refine ⟨by decide +kernel, by decide +kernel, fun h => ?_⟩
  obtain ⟨t, ht, heq⟩ := h.sources "src/src/a.js" (by decide +kernel)
  obtain rfl : t = "src/src/a.js" := heq
  exact absurd ht (by decide +kernel)

end SourceMap

end SingleFile
