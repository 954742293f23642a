import SingleFile.Proofs.SourceMap.Draft
import SingleFile.SourceMap.Compose

/-!
# Composed maps sit on their code

Composing and retargeting give no mapping a new place, so a map that sits on the code of the second
step still does (`SitsOn.merge`, `SitsOn.retarget`).
-/

namespace SingleFile

namespace SourceMap

variable {map old new : SourceMap} {cs : List Char}

/-- A map that is made of mappings has a mapping only where one of these stands. -/
theorem exists_of_mem_ofEntries {file root : Option String} {es : List MapEntry}
    {contents : List (String × String)} {e : MapEntry}
    (he : e ∈ (ofEntries file root es contents).entries) :
    ∃ x ∈ es, x.generated = e.generated := by
  obtain ⟨m, hm, rfl⟩ := List.mem_map.1 he
  obtain ⟨x, hx, rfl⟩ := List.mem_map.1 (mem_stableSort.1 hm)
  exact ⟨x, hx, rfl⟩

theorem sitsOn_ofEntries {file root : Option String} {es : List MapEntry}
    {contents : List (String × String)} (h : ∀ e ∈ es, OnCharacter cs e.generated) :
    (ofEntries file root es contents).SitsOn cs := by
  intro e he
  obtain ⟨x, hx, heq⟩ := exists_of_mem_ofEntries he
  rw [← heq]
  exact h x hx

/-- Tracing a mapping leaves it where it stands. -/
theorem generated_of_trace {e e' : MapEntry} (h : old.trace e = some e') :
    e'.generated = e.generated := by
  obtain ⟨-, -, h⟩ := Option.bind_eq_some_iff.1 h
  obtain ⟨origin, -, h⟩ := Option.bind_eq_some_iff.1 h
  rw [← Option.some.inj h]

/-- What a composed map sits on is the code of the second step. -/
theorem SitsOn.merge (h : new.SitsOn cs) (old : SourceMap) : (merge old new).SitsOn cs := by
  apply sitsOn_ofEntries
  intro e he
  obtain ⟨x, hx, htrace⟩ := List.mem_filterMap.1 he
  rw [generated_of_trace htrace]
  exact h x hx

theorem SitsOn.merge? (h : new.SitsOn cs) (old : Option SourceMap) :
    ∀ map ∈ SourceMap.merge? old (some new), map.SitsOn cs := by
  rintro map hmap
  cases old with
  | none =>
    obtain rfl := Option.some.inj hmap
    exact h
  | some old =>
    obtain rfl := Option.some.inj hmap
    exact h.merge old

theorem SitsOn.retarget (h : map.SitsOn cs) (path content : String) :
    (map.retarget path content).SitsOn cs := by
  unfold SourceMap.retarget
  split
  · exact h
  · apply sitsOn_ofEntries
    intro e he
    obtain ⟨x, hx, rfl⟩ := List.mem_map.1 he
    exact h x hx

end SourceMap

end SingleFile
