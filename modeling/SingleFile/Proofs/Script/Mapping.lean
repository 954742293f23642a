import SingleFile.Proofs.Script.Rewriting
import SingleFile.Proofs.Transform.Exports

/-!
# The map of a compiled script

Each mapping stands at a character of its own (`pairwise_layOut`), so sorting leaves the mappings as
they were laid out (`exists_map_assemble_eq`).  Where a character was copied, the mapping leads to the
same character of the script, and else to the start of what was replaced, since a character comes from
one segment only (`eq_of_outputs`).  What stands before the segments and behind them has no mappings:
neither the lines of the header nor the lines at the end resolve (`Traces`, `exists_compile_traces`).
-/

namespace SingleFile.Script

open Segment

/-! ### Places of mappings -/

theorem le_of_mem_copiedEntries {file : String} {e : MapEntry} {afterBlank : Bool} {g o : Position}
    {cs : List Char} (h : e ∈ copiedEntries file afterBlank g o cs) : g ≤ e.generated := by
  obtain ⟨a, c, b, -, -, -, -, rfl⟩ := mem_copiedEntries.1 h
  exact Position.le_after g a

theorem pairwise_copiedEntries (file : String) (afterBlank : Bool) (g o : Position)
    (cs : List Char) :
    (copiedEntries file afterBlank g o cs).Pairwise fun e e' => e.generated < e'.generated := by
  induction cs generalizing afterBlank g o with
  | nil => exact .nil
  | cons c r ih =>
    have hmore := ih (isBlank c) (g.step c) (o.step c)
    rw [copiedEntries]
    split
    · refine List.pairwise_cons.2 ⟨?_, hmore⟩
      intro e he
      exact Position.lt_of_lt_of_le (Position.lt_step g c) (le_of_mem_copiedEntries he)
    · exact hmore

theorem pairwise_segmentEntries (file : String) (g o : Position) (s : Segment) :
    (segmentEntries file g o s).Pairwise fun e e' => e.generated < e'.generated := by
  cases s with
  | copied text => exact pairwise_copiedEntries file true g o text
  | replaced old new =>
    cases new with
    | nil => exact .nil
    | cons c new =>
      rw [segmentEntries]
      split
      · exact .nil
      · exact List.pairwise_singleton _ _

/-- The mappings of a segment stand before the end of what it becomes. -/
theorem lt_of_mem_segmentEntries {file : String} {e : MapEntry} {g o : Position} {s : Segment}
    (h : e ∈ segmentEntries file g o s) : e.generated < g.after s.output := by
  rcases mem_segmentEntries.1 h with ⟨a, c, b, rfl, -, -, rfl⟩ | ⟨old, c, new, rfl, -, rfl⟩
  · show g.after a < g.after (a ++ c :: b)
    rw [Position.after_append]
    exact Position.lt_after_cons _ c b
  · exact Position.lt_after_cons g c new

/-- Each mapping stands behind the one before it. -/
theorem pairwise_layOut (file : String) (g o : Position) (ss : List Segment) :
    (layOut file g o ss).Pairwise fun e e' => e.generated < e'.generated := by
  induction ss generalizing g o with
  | nil => exact .nil
  | cons s more ih =>
    rw [layOut, List.pairwise_append]
    refine ⟨pairwise_segmentEntries file g o s, ih _ _, ?_⟩
    intro e he e' he'
    obtain ⟨before, made, c, -, rfl⟩ := mem_layOut.1 he'
    exact Position.lt_of_lt_of_le (lt_of_mem_segmentEntries he) (Position.le_after _ made)

/-- The map of compiled code has its mappings as they were laid out. -/
theorem exists_map_assemble_eq (format : ModuleFormat) (file source : String) (ss : List Segment)
    (footer : List String) : ∃ map, (assemble format file source ss footer).map = some map ∧
      map.entries = layOut file (Position.origin.after (front format)) .origin ss ∧
      ∀ m ∈ map.mappings, m.range = false := by
  have hordered : Ordered (layOut file (Position.origin.after (front format)) .origin ss) :=
    (pairwise_layOut _ _ _ _).imp Position.le_of_lt
  refine ⟨_, rfl, ?_, fun m hm => range_ofEntries hm⟩
  rw [entries_ofEntries]
  cases format <;> exact stableSort_of_ordered hordered

/-! ### Where a character comes from -/

/-- A character of the code comes from one place of one segment. -/
theorem eq_of_outputs {front front' back back' : List Segment} {s s' : Segment}
    {a a' b b' : List Char} {c c' : Char} (hss : front ++ s :: back = front' ++ s' :: back')
    (hs : s.output = a ++ c :: b) (hs' : s'.output = a' ++ c' :: b')
    (hmade : outputs front ++ a = outputs front' ++ a') : front = front' ∧ s = s' ∧ a = a' := by
  rcases append_cons_cases hss with ⟨rfl, rfl⟩ | ⟨between, rfl⟩ | ⟨between, rfl⟩
  · exact ⟨rfl, rfl, by simpa using hmade⟩
  · have hlength := congrArg List.length hmade
    simp [outputs, hs] at hlength
  · have hlength := congrArg List.length hmade
    simp [outputs, hs'] at hlength

/-- What is copied is not part of a replacement. -/
theorem Segment.Replaces.not_copies {ss : List Segment} {before before' made : List Char}
    {c c' : Char} (h : Replaces ss before made c) : ¬ Copies ss before' made c' := by
  rintro ⟨front', a, b, back', hss', -, hmade'⟩
  obtain ⟨front, old, new, back, rfl, -, rfl⟩ := h
  have hmade : outputs front ++ [] = outputs front' ++ a := by rw [List.append_nil, hmade']
  have hsame := eq_of_outputs (s := .replaced old (c :: new)) hss' rfl rfl hmade
  exact Segment.noConfusion hsame.2.1

/-! ### Lines without mappings -/

/-- A line that holds a character which ends no line is above the lines at the end. -/
theorem line_lt_endLine {body made : List Char} {c : Char} (h : made ++ [c] <+: body)
    (hc : c ≠ '\n') (p : Position) : (p.after made).line < (p.after (endLine body)).line := by
  obtain ⟨rest, rfl⟩ := h
  obtain ⟨middle, hend⟩ : ∃ middle, endLine (made ++ [c] ++ rest) = made ++ middle ++ ['\n'] := by
    unfold endLine
    rcases List.eq_nil_or_concat rest with rfl | ⟨init, d, rfl⟩
    · exact ⟨[c], by simp [hc]⟩
    · rw [List.concat_eq_append, ← List.append_assoc, List.getLast?_concat]
      by_cases hd : d = '\n'
      · exact ⟨c :: init, by simp [hd]⟩
      · exact ⟨c :: init ++ [d], by simp [hd]⟩
  rw [hend, Position.line_after, Position.line_after, breaks_append, breaks_append]
  show p.line + breaks made < p.line + (breaks made + breaks middle + 1)
  omega

/-! ### Compiled scripts -/

/-- What is expected of compiled code and its map, for a script divided into segments.  A mapping
stands at a character of the code and leads to a character of the script: to the same one if it was
copied, and else from the start of a replacement to the start of what is replaced.  All words that are
copied have mappings, and there are none in the header or in the lines at the end. -/
structure Traces (format : ModuleFormat) (file source : String) (ss : List Segment)
    (footer : List String) (code : List Char) (map : SourceMap) : Prop where
  text : code = front format ++ outputs ss ++ footerText (front format ++ outputs ss) footer
  increasing : map.entries.Pairwise fun e e' => e.generated < e'.generated
  placed : ∀ e ∈ map.entries, ∃ before made c d,
    front format ++ made ++ [c] <+: code ∧
      e.generated = Position.origin.after (front format ++ made) ∧
      before ++ [d] <+: source.toList ∧ e.original = Position.origin.after before ∧
      e.source = some file ∧ e.name = none ∧
      (Copies ss before made c ∧ d = c ∨
        Replaces ss before made c ∧ ∀ before' c', ¬ Copies ss before' made c')
  complete : ∀ before made c, StartsWord ss before made c → ∃ e ∈ map.entries,
    e.generated = Position.origin.after (front format ++ made) ∧
      e.original = Position.origin.after before ∧ e.source = some file
  atStart : ∀ p, p.line < (Position.origin.after (front format)).line → map.original? p = none
  atEnd : footer ≠ [] →
    code = endLine (front format ++ outputs ss) ++ endLines footer ∧
      ∀ p, (Position.origin.after (endLine (front format ++ outputs ss))).line ≤ p.line →
        map.original? p = none

section Laid

variable {format : ModuleFormat} {file source : String} {ss : List Segment} {footer : List String}
  {e : MapEntry}
  (he : e ∈ layOut file (Position.origin.after (front format)) .origin ss)

include he

/-- A mapping stands at a character of the segments that is not blank. -/
theorem exists_ink_of_mem_layOut : ∃ made c, isBlank c = false ∧
    front format ++ made ++ [c] <+: front format ++ outputs ss ∧
    e.generated = Position.origin.after (front format ++ made) := by
  obtain ⟨before, made, c, hfrom, rfl⟩ := mem_layOut.1 he
  have hout : isBlank c = false ∧ made ++ [c] <+: outputs ss := by
    rcases hfrom with hword | ⟨hreplace, hc⟩
    · exact ⟨hword.1, hword.copies.output⟩
    · exact ⟨hc, hreplace.output⟩
  refine ⟨made, c, hout.1, ?_, (Position.after_append _ _ _).symm⟩
  rw [List.append_assoc]
  exact (List.prefix_append_right_inj _).2 hout.2

/-- Its original stands at a character of the script. -/
theorem Divides.exists_placed (h : Divides format source ss footer) :
    ∃ before made c d, front format ++ made ++ [c] <+: front format ++ outputs ss ∧
      e.generated = Position.origin.after (front format ++ made) ∧
      before ++ [d] <+: source.toList ∧ e.original = Position.origin.after before ∧
      e.source = some file ∧ e.name = none ∧
      (Copies ss before made c ∧ d = c ∨
        Replaces ss before made c ∧ ∀ before' c', ¬ Copies ss before' made c') := by
  obtain ⟨before, made, c, hfrom, rfl⟩ := mem_layOut.1 he
  have hgenerated := (Position.after_append .origin (front format) made).symm
  have hprefix {made : List Char} {c : Char} (hout : made ++ [c] <+: outputs ss) :
      front format ++ made ++ [c] <+: front format ++ outputs ss := by
    rw [List.append_assoc]
    exact (List.prefix_append_right_inj _).2 hout
  rcases hfrom with hword | ⟨hreplace, -⟩
  · refine ⟨before, made, c, c, hprefix hword.copies.output, hgenerated, ?_, rfl, rfl, rfl,
      .inl ⟨hword.copies, rfl⟩⟩
    rw [← sources_of_divides h]
    exact hword.copies.source
  · obtain ⟨d, hd⟩ := hreplace.exists_source h
    exact ⟨before, made, c, d, hprefix hreplace.output, hgenerated, hd, rfl, rfl, rfl,
      .inr ⟨hreplace, fun before' c' => hreplace.not_copies⟩⟩

end Laid

/-- The map of compiled code traces it. -/
theorem Divides.exists_traces {format : ModuleFormat} {source : String} {ss : List Segment}
    {footer : List String} (h : Divides format source ss footer) (file : String) :
    ∃ map, (assemble format file source ss footer).map = some map ∧
      Traces format file source ss footer (assemble format file source ss footer).code.toList map := by
  obtain ⟨map, hmap, hentries, hrange⟩ := exists_map_assemble_eq format file source ss footer
  have hcode := code_assemble format file source ss footer
  have hnone {p : Position} (hlines : ∀ e ∈ layOut file (Position.origin.after (front format))
      .origin ss, e.generated.line ≠ p.line) : map.original? p = none := by
    rw [original?_eq_resolve hrange]
    apply resolve_eq_none
    rw [hentries]
    exact hlines
  refine ⟨map, hmap, hcode, ?_, ?_, ?_, ?_, ?_⟩
  · rw [hentries]
    exact pairwise_layOut _ _ _ _
  · intro e he
    rw [hentries] at he
    obtain ⟨before, made, c, d, hprefix, hplaced⟩ := h.exists_placed he
    refine ⟨before, made, c, d, ?_, hplaced⟩
    rw [hcode]
    exact hprefix.trans (List.prefix_append _ _)
  · intro before made c hword
    refine ⟨entryAt file ((Position.origin.after (front format)).after made)
      (Position.origin.after before), ?_, (Position.after_append _ _ _).symm, rfl, rfl⟩
    rw [hentries]
    exact mem_layOut.2 ⟨before, made, c, .inl hword, rfl⟩
  · intro p hp
    apply hnone
    intro e he
    obtain ⟨made, c, -, -, hgenerated⟩ := exists_ink_of_mem_layOut he
    rw [Position.line_after] at hp
    rw [hgenerated, Position.line_after, breaks_append]
    omega
  · intro hfooter
    refine ⟨hcode.trans (append_footerText hfooter), ?_⟩
    intro p hp
    apply hnone
    intro e he
    obtain ⟨made, c, hc, hprefix, hgenerated⟩ := exists_ink_of_mem_layOut he
    have hbreak : c ≠ '\n' := by
      rintro rfl
      exact absurd hc (by decide)
    have hline := line_lt_endLine hprefix hbreak Position.origin
    rw [hgenerated]
    omega

/-- **A script that the parser accepts is compiled to code whose map traces it.** -/
theorem exists_compile_traces {source : String} {items : List Item} (h : parse source = .ok items)
    (format : ModuleFormat) (file : String) :
    ∃ made ss footer map, compile format file source = .ok made ∧ made.map = some map ∧
      Divides format source ss footer ∧ Rewrites source.toList items ss ∧
      Traces format file source ss footer made.code.toList map := by
  obtain ⟨ss, footer, hdivides, hrewrites⟩ := exists_divides h format
  obtain ⟨map, hmap, htraces⟩ := hdivides.exists_traces file
  exact ⟨_, ss, footer, map, compile_eq_ok_iff.2 ⟨ss, footer, hdivides, rfl⟩, hmap, hdivides,
    hrewrites, htraces⟩

theorem exists_compile_traces_listedSource : parse listedSource = .ok listedItems ∧
    ∃ made ss footer map, compile .commonJS "/app/A.vue" listedSource = .ok made ∧
      made.map = some map ∧ Divides .commonJS listedSource ss footer ∧
      Rewrites listedSource.toList listedItems ss ∧
      Traces .commonJS "/app/A.vue" listedSource ss footer made.code.toList map :=
  ⟨parse_listedSource, exists_compile_traces parse_listedSource .commonJS "/app/A.vue"⟩

end SingleFile.Script
