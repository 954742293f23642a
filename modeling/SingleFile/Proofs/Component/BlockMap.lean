import SingleFile.Component.Reader
import SingleFile.Proofs.SourceMap.Lookup
import SingleFile.Proofs.Text.Search

/-!
# What the map of a script answers

The map of a script has one entry for each character of its content that is not white space, on
lines that are not bare (`mem_entries_blockMap`).  It answers for positions of the content with the
same line, counted from where the content starts, and never with a name (`original?_blockMap`,
`original?_blockMap_of_ink`).
-/

namespace SingleFile

/-- The line of a text on which a character stands between two parts. -/
def lineAround (a : List Char) (c : Char) (b : List Char) : List Char :=
  lastLine a ++ c :: b.takeWhile (· ≠ '\n')

/-- What the map of a script says of a position of its content. -/
def blockEntry (filename : String) (start : Nat) (p : Position) : MapEntry :=
  ⟨p, ⟨start + p.line, p.column⟩, some filename, none⟩

theorem mem_inkColumns {o column : Nat} {line : List Char} :
    column ∈ inkColumns o line ↔
      ∃ x c y, line = x ++ c :: y ∧ isBlank c = false ∧ column = o + units x := by
  induction line generalizing o with
  | nil => simp [inkColumns]
  | cons d r ih =>
    have hsplit : (∃ x c y, d :: r = x ++ c :: y ∧ isBlank c = false ∧ column = o + units x) ↔
        isBlank d = false ∧ column = o ∨
          ∃ x c y, r = x ++ c :: y ∧ isBlank c = false ∧ column = o + Char.units d + units x := by
      constructor
      · rintro ⟨x, c, y, hline, hc, hcolumn⟩
        cases x with
        | nil =>
          obtain ⟨rfl, rfl⟩ := List.cons.inj hline
          exact .inl ⟨hc, by simpa [units] using hcolumn⟩
        | cons e x =>
          obtain ⟨rfl, rfl⟩ := List.cons.inj hline
          exact .inr ⟨x, c, y, rfl, hc, by rw [hcolumn, units, Nat.add_assoc]⟩
      · rintro (⟨hd, rfl⟩ | ⟨x, c, y, rfl, hc, rfl⟩)
        · exact ⟨[], d, r, rfl, hd, rfl⟩
        · exact ⟨d :: x, c, y, rfl, hc, by rw [units, Nat.add_assoc]⟩
    rw [hsplit, inkColumns]
    cases hd : isBlank d with
    | true => simp [ih]
    | false => simp [ih]

theorem ne_break_of_ink {c : Char} (h : isBlank c = false) : c ≠ '\n' := by
  rintro rfl
  exact absurd h (by decide)

section BlockMap

variable {filename source : String} {start : Nat} {content : List Char}

/-- The entries are those of the characters that are not white space, on lines that are not bare. -/
theorem mem_entries_blockMap {e : MapEntry} :
    e ∈ (blockMap filename source start content).entries ↔
      ∃ a c b, content = a ++ c :: b ∧ isBlank c = false ∧ isBareLine (lineAround a c b) = false ∧
        e = blockEntry filename start (Position.origin.after a) := by
  have hentries : (blockMap filename source start content).entries = _ :=
    entries_ofEntries (some filename) _ [(filename, source)]
  rw [hentries, mem_stableSort, List.mem_flatMap]
  constructor
  · rintro ⟨⟨line, row⟩, hline, he⟩
    have hrow : (splitAt '\n' content)[row]? = some line := List.mk_mem_zipIdx_iff_getElem?.1 hline
    cases hbare : isBareLine line with
    | true => simp [hbare] at he
    | false =>
      obtain ⟨column, hcolumn, rfl⟩ : ∃ column ∈ inkColumns 0 line,
          (⟨⟨row, column⟩, ⟨start + row, column⟩, some filename, none⟩ : MapEntry) = e := by
        simpa [hbare] using he
      obtain ⟨x, c, y, rfl, hc, rfl⟩ := mem_inkColumns.1 hcolumn
      obtain ⟨pre, post, rfl, rfl, hpre, hbreak, hpost⟩ := exists_of_getElem?_splitAt hrow
      have hx : breaks x = 0 := breaks_eq_zero_iff.2 fun h => hbreak (List.mem_append_left _ h)
      have hy : ∀ d ∈ y, d ≠ '\n' := fun d hd h =>
        hbreak (List.mem_append_right _ (List.mem_cons_of_mem _ (h ▸ hd)))
      have hlast : lastLine (pre ++ x) = x := by rw [lastLine_append hx, hpre, List.nil_append]
      have htake : (y ++ post).takeWhile (· ≠ '\n') = y := by
        rw [List.takeWhile_append_of_pos (by simpa using hy)]
        rcases hpost with rfl | ⟨t, rfl⟩ <;> simp
      refine ⟨pre ++ x, c, y ++ post, by simp, hc, ?_, ?_⟩
      · rw [lineAround, hlast, htake]
        exact hbare
      · rw [after_origin, hlast, breaks_append, hx, blockEntry, Nat.zero_add, Nat.add_zero]
  · rintro ⟨a, c, b, rfl, hc, hbare, rfl⟩
    refine ⟨(lineAround a c b, breaks a), ?_, ?_⟩
    · exact List.mk_mem_zipIdx_iff_getElem?.2 (getElem?_splitAt_breaks (ne_break_of_ink hc))
    · simp only [hbare, Bool.false_eq_true, if_false, List.mem_map]
      refine ⟨units (lastLine a), mem_inkColumns.2 ⟨_, c, _, rfl, hc, (Nat.zero_add _).symm⟩, ?_⟩
      rw [after_origin]
      rfl

theorem range_blockMap {m : Mapping} (hm : m ∈ (blockMap filename source start content).mappings) :
    m.range = false := range_ofEntries hm

/-- What the map answers keeps the column where it has one of its own, and always counts lines from
where the content starts. -/
theorem original?_blockMap {p : Position} {o : Origin}
    (h : (blockMap filename source start content).original? p = some o) :
    o.source = filename ∧ o.position.line = start + p.line ∧ o.name = none := by
  rw [original?_eq_resolve fun m hm => range_blockMap hm] at h
  obtain ⟨e, he, hline, -, ho⟩ := exists_of_resolve h
  obtain ⟨a, c, b, -, -, -, rfl⟩ := mem_entries_blockMap.1 he
  obtain rfl : ⟨filename, ⟨start + (Position.origin.after a).line, (Position.origin.after a).column⟩,
      none⟩ = o := by simpa [MapEntry.origin?, blockEntry] using ho
  exact ⟨rfl, congrArg (start + ·) hline, rfl⟩

/-- Each character that is not white space is found, on lines that are not bare. -/
theorem original?_blockMap_of_ink {a b : List Char} {c : Char} (hcontent : content = a ++ c :: b)
    (hc : isBlank c = false) (hbare : isBareLine (lineAround a c b) = false) :
    (blockMap filename source start content).original? (Position.origin.after a) =
      some ⟨filename, ⟨start + (Position.origin.after a).line, (Position.origin.after a).column⟩,
        none⟩ := by
  have hmem : blockEntry filename start (Position.origin.after a) ∈
      (blockMap filename source start content).entries :=
    mem_entries_blockMap.2 ⟨a, c, b, hcontent, hc, hbare, rfl⟩
  rw [original?_eq_resolve fun m hm => range_blockMap hm, resolve]
  cases hfind : (blockMap filename source start content).entries.find?
      fun e => e.generated = Position.origin.after a with
  | none => exact absurd (List.find?_eq_none.1 hfind _ hmem) (by simp [blockEntry])
  | some e =>
    have hp : e.generated = Position.origin.after a := by simpa using List.find?_some hfind
    obtain ⟨x, -, -, -, -, -, rfl⟩ := mem_entries_blockMap.1 (List.mem_of_find?_eq_some hfind)
    have hx : Position.origin.after x = Position.origin.after a := hp
    simp [MapEntry.origin?, blockEntry, hx]

/-! ### Tracing -/

/-- A mapping that is traced to the file keeps its column. -/
theorem trace_blockMap {e e' : MapEntry} (h : (blockMap filename source start content).trace e = some e') :
    e' = ⟨e.generated, ⟨start + e.original.line, e.original.column⟩, some filename, none⟩ := by
  unfold SourceMap.trace at h
  obtain ⟨-, -, h⟩ := Option.bind_eq_some_iff.1 h
  obtain ⟨o, ho, heq⟩ := Option.bind_eq_some_iff.1 h
  obtain ⟨hsource, hline, hname⟩ := original?_blockMap ho
  rw [← Option.some.inj heq, hsource, hline, hname]

/-- A mapping of a character that is not white space is traced, on lines that are not bare. -/
theorem trace_blockMap_of_ink {e : MapEntry} {a b : List Char} {c : Char}
    (hcontent : content = a ++ c :: b) (hc : isBlank c = false)
    (hbare : isBareLine (lineAround a c b) = false) (hsource : e.source.isSome = true)
    (he : e.original = Position.origin.after a) :
    (blockMap filename source start content).trace e =
      some ⟨e.generated, ⟨start + e.original.line, e.original.column⟩, some filename, none⟩ := by
  obtain ⟨s, hs⟩ := Option.isSome_iff_exists.1 hsource
  unfold SourceMap.trace
  rw [hs, he, original?_blockMap_of_ink hcontent hc hbare]
  rfl

end BlockMap

end SingleFile
