import SingleFile.Proofs.SourceMap.Sources
import SingleFile.SourceMap.Reader

/-!
# Retargeted maps

Retargeting makes a map anew from its mappings, each with the path for its source.  Maps are in order
however they come about (`ordered_ofEntries`, `ordered_of_parse`), so the mappings stay as they are, and
the new map answers with the path for the source wherever the old one answers.  But its mappings are no
ranges any more.  Behind a range the old map counts on, while the new one answers with the column of the
mapping (`onlyRenames_retarget_iff`).
-/

namespace SingleFile

/-- The answer with another source. -/
def Origin.inSource (path : String) (o : Origin) : Origin := { o with source := path }

/-- The answer for a column before. -/
def Origin.retreat (n : Nat) (o : Origin) : Origin :=
  { o with position := ⟨o.position.line, o.position.column - n⟩ }

theorem Origin.retreat_advance (n : Nat) (o : Origin) : (o.advance n).retreat n = o := by
  unfold advance retreat
  rw [Nat.add_sub_cancel]

/-- The mapping with a path for its source. -/
def MapEntry.inSource (path : String) (e : MapEntry) : MapEntry := e.rename fun _ => path

theorem MapEntry.origin?_inSource (path : String) (e : MapEntry) :
    (e.inSource path).origin? = e.origin?.map (Origin.inSource path) := by
  unfold inSource rename origin?
  cases e.source <;> rfl

namespace SourceMap

variable {map : SourceMap} {path content : String}

/-! ### Maps in order -/

theorem ordered_of_ofDocument {d : Document} (h : ofDocument d = .ok map) : Ordered map.entries := by
  unfold ofDocument at h
  cases hlines : readLines d.sources.length d.names.length 0 {} (splitAt ';' d.mappings.toList)
      (splitAt ';' d.ranges.toList) with
  | error e =>
    rw [hlines] at h
    cases h
  | ok ms =>
    rw [hlines] at h
    cases h
    exact ordered_of_sorted rfl

theorem ordered_of_ofJson {v : Json} (h : ofJson v = .ok map) : Ordered map.entries := by
  unfold ofJson at h
  split at h
  · cases h
  · next d _ =>
    split at h
    · cases hall : decodeAll Json.depthLimit v <;> rw [hall] at h <;> cases h
    · exact ordered_of_ofDocument h

/-- A map that is read is in order, whatever the order of its text. -/
theorem ordered_of_parse {text : String} (h : parse text = .ok map) : Ordered map.entries := by
  unfold parse at h
  cases hguard : stripGuard text.toList with
  | error e =>
    rw [hguard] at h
    cases h
  | ok cs =>
    simp only [hguard, bind, Except.bind] at h
    cases hjson : Json.parseChars cs with
    | none =>
      rw [hjson] at h
      cases h
    | some v =>
      rw [hjson] at h
      exact ordered_of_ofJson h

/-! ### What is retargeted -/

/-- What is expected of a map that is pointed at a path: it answers as before, with the path for the
source, and has this source only, with the content. -/
structure OnlyRenames (path content : String) (map retargeted : SourceMap) : Prop where
  answers : ∀ p, retargeted.original? p = (map.original? p).map (Origin.inSource path)
  sources : retargeted.sourceNames = [path]
  content : retargeted.contentOf path = some content

theorem retarget_eq (h : map.sources.length = 1) (path content : String) :
    map.retarget path content =
      ofEntries map.file none (map.entries.map (MapEntry.inSource path)) [(path, content)] := by
  unfold retarget
  rw [if_neg (not_not.2 h)]
  rfl

theorem sources_retarget (h : map.sources.length = 1) (path content : String) :
    (map.retarget path content).sources = [path] := by
  rw [retarget_eq h]
  apply firstUses_eq_singleton
  · simp
  · intro s hs
    rcases List.mem_append.1 hs with hs | hs
    · obtain ⟨e, he, hsource⟩ := List.mem_filterMap.1 hs
      obtain ⟨d, -, rfl⟩ := List.mem_map.1 he
      obtain ⟨-, -, heq⟩ := Option.map_eq_some_iff.1 hsource
      exact heq.symm
    · simpa using hs

theorem sourceNames_retarget (h : map.sources.length = 1) (path content : String) :
    (map.retarget path content).sourceNames = [path] := by
  have hroot : (map.retarget path content).sourceRoot = none := by
    rw [retarget_eq h]
    rfl
  rw [sourceNames_eq_map, hroot, sources_retarget h]
  rfl

theorem contentOf_retarget (h : map.sources.length = 1) (path content : String) :
    (map.retarget path content).contentOf path = some content := by
  have hmem : path ∈ (map.retarget path content).sources := by
    rw [sources_retarget h]
    exact List.mem_singleton_self path
  rw [retarget_eq h] at hmem ⊢
  refine (contentOf_ofEntries hmem fun t _ heq => heq).trans ?_
  simp

/-- The new map answers from the old mappings, as if none of them was a range. -/
theorem original?_retarget (h : map.sources.length = 1) (hordered : Ordered map.entries)
    (path content : String) (p : Position) :
    (map.retarget path content).original? p =
      (resolve map.entries p).map (Origin.inSource path) := by
  have hrenamed : Ordered (map.entries.map (MapEntry.inSource path)) :=
    List.pairwise_map.2 hordered
  have hplace (e : MapEntry) : (e.inSource path).generated = e.generated := rfl
  rw [retarget_eq h, original?_eq_resolve fun _ => range_ofEntries, entries_ofEntries,
    stableSort_of_ordered hrenamed]
  exact resolve_map hplace (MapEntry.origin?_inSource path) map.entries p

/-- **Retargeting only renames, apart from ranges.**  The new map has the path as its only source, with
the content.  Everywhere it answers just where the old map does, with the path for the source, and with
the same position and name, but that it goes back to the column of a range.  So it only renames just
when no place behind a range has an answer. -/
theorem onlyRenames_retarget_iff (h : map.sources.length = 1) (hordered : Ordered map.entries)
    (path content : String) :
    (map.retarget path content).sourceNames = [path] ∧
      (map.retarget path content).contentOf path = some content ∧
      (∀ p, (map.retarget path content).original? p =
        (map.original? p).map fun o => (o.retreat (map.stretch p)).inSource path) ∧
      (OnlyRenames path content map (map.retarget path content) ↔
        ∀ p, map.stretch p = 0 ∨ map.original? p = none) := by
  have hanswers (p : Position) : (map.retarget path content).original? p =
      (map.original? p).map fun o => (o.retreat (map.stretch p)).inSource path := by
    rw [original?_retarget h hordered, original?_eq_map_resolve, Option.map_map]
    congr 1
    funext o
    rw [Function.comp_apply, Origin.retreat_advance]
  refine ⟨sourceNames_retarget h path content, contentOf_retarget h path content, hanswers, ?_⟩
  constructor
  · intro hrenames p
    by_cases hnone : map.original? p = none
    · exact .inr hnone
    · left
      obtain ⟨o, ho⟩ := Option.ne_none_iff_exists'.1 hnone
      rw [original?_eq_map_resolve] at ho
      obtain ⟨o', ho', rfl⟩ := Option.map_eq_some_iff.1 ho
      have hsame := hrenames.answers p
      rw [original?_retarget h hordered, original?_eq_map_resolve, ho'] at hsame
      have hcolumn := congrArg (fun o => o.position.column) (Option.some.inj hsame)
      change o'.position.column = o'.position.column + map.stretch p at hcolumn
      omega
  · intro hstretch
    refine ⟨?_, sourceNames_retarget h path content, contentOf_retarget h path content⟩
    intro p
    rw [hanswers p]
    rcases hstretch p with hzero | hnone
    · rw [hzero]
      rfl
    · rw [hnone]
      rfl

/-- A map whose one mapping is a range. -/
def rangeSample : SourceMap where
  file := none
  sourceRoot := none
  sources := ["a.js"]
  contents := []
  names := []
  mappings := [⟨.origin, .origin, some 0, none, true⟩]
  ignored := []
  debugId := none

theorem onlyRenames_retarget_iff_rangeSample :
    rangeSample.sources.length = 1 ∧ Ordered rangeSample.entries ∧
      (rangeSample.retarget "/app/external.js" "let a").sourceNames = ["/app/external.js"] ∧
      (rangeSample.retarget "/app/external.js" "let a").contentOf "/app/external.js" = some "let a" ∧
      (∀ p, (rangeSample.retarget "/app/external.js" "let a").original? p =
        (rangeSample.original? p).map fun o =>
          (o.retreat (rangeSample.stretch p)).inSource "/app/external.js") ∧
      (OnlyRenames "/app/external.js" "let a" rangeSample
          (rangeSample.retarget "/app/external.js" "let a") ↔
        ∀ p, rangeSample.stretch p = 0 ∨ rangeSample.original? p = none) :=
  ⟨rfl, by decide, onlyRenames_retarget_iff rfl (by decide) "/app/external.js" "let a"⟩

/-- Behind the range the column is lost. -/
theorem not_onlyRenames_rangeSample :
    ¬ OnlyRenames "/app/external.js" "let a" rangeSample
      (rangeSample.retarget "/app/external.js" "let a") := by
  intro hrenames
  have hanswer := hrenames.answers ⟨0, 3⟩
  revert hanswer
  decide +kernel

end SourceMap

end SingleFile
