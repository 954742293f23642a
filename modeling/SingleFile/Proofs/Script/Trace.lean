import SingleFile.Proofs.SourceMap.Lookup
import SingleFile.Script.Interop

/-!
# Where compiled code comes from

A script is compiled from its segments (`compile_eq_ok_iff`), which make up the script
(`sources_of_cut`).  `Segment.Copies` and `Segment.Replaces` say which characters of the compiled
code come from which places of the script, and `mem_layOut` that the mappings are those of the words
that are copied and of the replacements.
-/

namespace SingleFile.Script

namespace Segment

/-- The script that segments divide. -/
def sources (ss : List Segment) : List Char := ss.flatMap source

/-- The code that segments become. -/
def outputs (ss : List Segment) : List Char := ss.flatMap output

/-- A character is copied, from behind `before` in the script to behind `made` in the code. -/
def Copies (ss : List Segment) (before made : List Char) (c : Char) : Prop :=
  ∃ front a b back, ss = front ++ .copied (a ++ c :: b) :: back ∧
    before = sources front ++ a ∧ made = outputs front ++ a

/-- A copied character starts a word: it is not blank, and comes first or after a blank one. -/
def StartsWord (ss : List Segment) (before made : List Char) (c : Char) : Prop :=
  isBlank c = false ∧ ∃ front a b back, ss = front ++ .copied (a ++ c :: b) :: back ∧
    before = sources front ++ a ∧ made = outputs front ++ a ∧ ∀ d ∈ a.getLast?, isBlank d = true

/-- A character is the first one of what stands behind `made` for a part of the script that starts
behind `before`. -/
def Replaces (ss : List Segment) (before made : List Char) (c : Char) : Prop :=
  ∃ front old new back, ss = front ++ .replaced old (c :: new) :: back ∧
    before = sources front ∧ made = outputs front

variable {ss : List Segment} {before made : List Char} {c : Char}

theorem StartsWord.copies (h : StartsWord ss before made c) : Copies ss before made c := by
  obtain ⟨-, front, a, b, back, hss, hbefore, hmade, -⟩ := h
  exact ⟨front, a, b, back, hss, hbefore, hmade⟩

/-- What is copied stands in the script. -/
theorem Copies.source (h : Copies ss before made c) : before ++ [c] <+: sources ss := by
  obtain ⟨front, a, b, back, rfl, rfl, -⟩ := h
  exact ⟨b ++ sources back, by simp [sources, Segment.source]⟩

/-- What is copied stands in the code. -/
theorem Copies.output (h : Copies ss before made c) : made ++ [c] <+: outputs ss := by
  obtain ⟨front, a, b, back, rfl, -, rfl⟩ := h
  exact ⟨b ++ outputs back, by simp [outputs, Segment.output]⟩

/-- What is replaced starts in the script. -/
theorem Replaces.source (h : Replaces ss before made c) : before <+: sources ss := by
  obtain ⟨front, old, new, back, rfl, rfl, -⟩ := h
  exact ⟨old ++ sources back, by simp [sources, Segment.source]⟩

/-- A replacement stands in the code. -/
theorem Replaces.output (h : Replaces ss before made c) : made ++ [c] <+: outputs ss := by
  obtain ⟨front, old, new, back, rfl, -, rfl⟩ := h
  exact ⟨new ++ outputs back, by simp [outputs, Segment.output]⟩

theorem startsWord_cons {s : Segment} :
    StartsWord (s :: ss) before made c ↔
      (isBlank c = false ∧ ∃ a b, s = .copied (a ++ c :: b) ∧ before = a ∧ made = a ∧
        ∀ d ∈ a.getLast?, isBlank d = true) ∨
      ∃ before' made', StartsWord ss before' made' c ∧ before = s.source ++ before' ∧
        made = s.output ++ made' := by
  constructor
  · rintro ⟨hc, front, a, b, back, hss, rfl, rfl, hlast⟩
    cases front with
    | nil =>
      obtain ⟨rfl, rfl⟩ := List.cons.inj hss
      exact .inl ⟨hc, a, b, rfl, rfl, rfl, hlast⟩
    | cons t front =>
      obtain ⟨rfl, rfl⟩ := List.cons.inj hss
      refine .inr ⟨_, _, ⟨hc, front, a, b, back, rfl, rfl, rfl, hlast⟩, ?_, ?_⟩ <;>
        simp [sources, outputs]
  · rintro (⟨hc, a, b, rfl, rfl, rfl, hlast⟩ |
      ⟨_, _, ⟨hc, front, a, b, back, rfl, rfl, rfl, hlast⟩, rfl, rfl⟩)
    · exact ⟨hc, [], _, b, ss, rfl, rfl, rfl, hlast⟩
    · refine ⟨hc, s :: front, a, b, back, rfl, ?_, ?_, hlast⟩ <;> simp [sources, outputs]

theorem replaces_cons {s : Segment} :
    Replaces (s :: ss) before made c ↔
      (∃ old new, s = .replaced old (c :: new) ∧ before = [] ∧ made = []) ∨
      ∃ before' made', Replaces ss before' made' c ∧ before = s.source ++ before' ∧
        made = s.output ++ made' := by
  constructor
  · rintro ⟨front, old, new, back, hss, rfl, rfl⟩
    cases front with
    | nil =>
      obtain ⟨rfl, rfl⟩ := List.cons.inj hss
      exact .inl ⟨old, new, rfl, rfl, rfl⟩
    | cons t front =>
      obtain ⟨rfl, rfl⟩ := List.cons.inj hss
      exact .inr ⟨_, _, ⟨front, old, new, back, rfl, rfl, rfl⟩, rfl, rfl⟩
  · rintro (⟨old, new, rfl, rfl, rfl⟩ | ⟨_, _, ⟨front, old, new, back, rfl, rfl, rfl⟩, rfl, rfl⟩)
    · exact ⟨[], old, new, ss, rfl, rfl, rfl⟩
    · exact ⟨s :: front, old, new, back, rfl, rfl, rfl⟩

end Segment

open Segment

/-! ### Mappings -/

theorem mem_copiedEntries {file : String} {e : MapEntry} {afterBlank : Bool} {g o : Position}
    {cs : List Char} :
    e ∈ copiedEntries file afterBlank g o cs ↔
      ∃ a c b, cs = a ++ c :: b ∧ isBlank c = false ∧ (a = [] → afterBlank = true) ∧
        (∀ d ∈ a.getLast?, isBlank d = true) ∧ e = entryAt file (g.after a) (o.after a) := by
  induction cs generalizing afterBlank g o with
  | nil => simp [copiedEntries]
  | cons d r ih =>
    have hhere : (afterBlank && !isBlank d) = true ↔ isBlank d = false ∧ afterBlank = true := by
      rw [Bool.and_eq_true, Bool.not_eq_true', And.comm]
    have hmore : (∃ a c b, d :: r = a ++ c :: b ∧ isBlank c = false ∧ (a = [] → afterBlank = true) ∧
          (∀ x ∈ a.getLast?, isBlank x = true) ∧ e = entryAt file (g.after a) (o.after a)) ↔
        (isBlank d = false ∧ afterBlank = true) ∧ e = entryAt file g o ∨
          ∃ a c b, r = a ++ c :: b ∧ isBlank c = false ∧ (a = [] → isBlank d = true) ∧
            (∀ x ∈ a.getLast?, isBlank x = true) ∧
            e = entryAt file ((g.step d).after a) ((o.step d).after a) := by
      constructor
      · rintro ⟨a, c, b, hcut, hc, hfirst, hlast, rfl⟩
        cases a with
        | nil =>
          obtain ⟨rfl, rfl⟩ := List.cons.inj hcut
          exact .inl ⟨⟨hc, hfirst rfl⟩, rfl⟩
        | cons x a =>
          obtain ⟨rfl, rfl⟩ := List.cons.inj hcut
          refine .inr ⟨a, c, b, rfl, hc, ?_, ?_, by rw [Position.after_cons, Position.after_cons]⟩
          · rintro rfl
            exact hlast d rfl
          · cases a with
            | nil => simp
            | cons y a => exact fun z hz => hlast z (by rwa [List.getLast?_cons_cons])
      · rintro (⟨⟨hd, hfirst⟩, rfl⟩ | ⟨a, c, b, rfl, hc, hfirst, hlast, rfl⟩)
        · exact ⟨[], d, r, rfl, hd, fun _ => hfirst, by simp, rfl⟩
        · refine ⟨d :: a, c, b, rfl, hc, by simp, ?_, by rw [Position.after_cons, Position.after_cons]⟩
          cases a with
          | nil => simpa using hfirst rfl
          | cons y a => exact fun z hz => hlast z (by rwa [List.getLast?_cons_cons] at hz)
    rw [hmore, copiedEntries]
    split
    · next h =>
      rw [List.mem_cons, ih]
      exact or_congr_left (and_iff_right (hhere.1 h)).symm
    · next h =>
      rw [ih]
      exact (or_iff_right fun hboth => h (hhere.2 hboth.1)).symm

theorem mem_segmentEntries {file : String} {e : MapEntry} {g o : Position} {s : Segment} :
    e ∈ segmentEntries file g o s ↔
      (∃ a c b, s = .copied (a ++ c :: b) ∧ isBlank c = false ∧ (∀ d ∈ a.getLast?, isBlank d = true) ∧
        e = entryAt file (g.after a) (o.after a)) ∨
      ∃ old c new, s = .replaced old (c :: new) ∧ isBlank c = false ∧ e = entryAt file g o := by
  cases s with
  | copied text =>
    rw [segmentEntries, mem_copiedEntries]
    simp
  | replaced old new =>
    cases new with
    | nil => simp [segmentEntries]
    | cons c new =>
      rw [segmentEntries]
      constructor
      · intro he
        split at he
        · exact absurd he List.not_mem_nil
        · next hc => exact .inr ⟨old, c, new, rfl, by simpa using hc, List.mem_singleton.1 he⟩
      · rintro (⟨a, d, b, ⟨⟩, -⟩ | ⟨_, _, _, ⟨⟩, hc, rfl⟩)
        rw [if_neg (by simp [hc])]
        exact List.mem_singleton_self _

/-- The mappings are those of the words that are copied and of the replacements. -/
theorem mem_layOut {file : String} {e : MapEntry} {g o : Position} {ss : List Segment} :
    e ∈ layOut file g o ss ↔ ∃ before made c,
      (StartsWord ss before made c ∨ Replaces ss before made c ∧ isBlank c = false) ∧
        e = entryAt file (g.after made) (o.after before) := by
  induction ss generalizing g o with
  | nil => simp [layOut, StartsWord, Replaces]
  | cons s more ih =>
    rw [layOut, List.mem_append, mem_segmentEntries, ih]
    constructor
    · rintro ((⟨a, c, b, rfl, hc, hlast, rfl⟩ | ⟨old, c, new, rfl, hc, rfl⟩) |
        ⟨before, made, c, hfrom, rfl⟩)
      · exact ⟨a, a, c, .inl (startsWord_cons.2 (.inl ⟨hc, a, b, rfl, rfl, rfl, hlast⟩)), rfl⟩
      · exact ⟨[], [], c, .inr ⟨replaces_cons.2 (.inl ⟨old, new, rfl, rfl, rfl⟩), hc⟩, rfl⟩
      · refine ⟨s.source ++ before, s.output ++ made, c, ?_, ?_⟩
        · rcases hfrom with hword | ⟨hreplace, hc⟩
          · exact .inl (startsWord_cons.2 (.inr ⟨before, made, hword, rfl, rfl⟩))
          · exact .inr ⟨replaces_cons.2 (.inr ⟨before, made, hreplace, rfl, rfl⟩), hc⟩
        · rw [Position.after_append, Position.after_append]
    · rintro ⟨before, made, c, hfrom, rfl⟩
      rcases hfrom with hword | ⟨hreplace, hc⟩
      · rcases startsWord_cons.1 hword with
          ⟨hc, a, b, rfl, rfl, rfl, hlast⟩ | ⟨before', made', hmore, rfl, rfl⟩
        · exact .inl (.inl ⟨_, c, b, rfl, hc, hlast, rfl⟩)
        · refine .inr ⟨before', made', c, .inl hmore, ?_⟩
          rw [Position.after_append, Position.after_append]
      · rcases replaces_cons.1 hreplace with
          ⟨old, new, rfl, rfl, rfl⟩ | ⟨before', made', hmore, rfl, rfl⟩
        · exact .inl (.inr ⟨old, c, new, rfl, hc, rfl⟩)
        · refine .inr ⟨before', made', c, .inr ⟨hmore, hc⟩, ?_⟩
          rw [Position.after_append, Position.after_append]

/-! ### Compiling -/

/-- What compiled code starts with. -/
def front : ModuleFormat → List Char
  | .commonJS => header.toList
  | .ecmaScript => []

theorem code_assemble (format : ModuleFormat) (file source : String) (ss : List Segment)
    (footer : List String) : (assemble format file source ss footer).code.toList =
      front format ++ outputs ss ++ footerText (front format ++ outputs ss) footer := by
  rw [outputs, List.flatMap_def]
  cases format <;> exact String.toList_ofList

/-- The map of compiled code, with its mappings. -/
theorem exists_map_assemble (format : ModuleFormat) (file source : String) (ss : List Segment)
    (footer : List String) : ∃ map, (assemble format file source ss footer).map = some map ∧
      ∀ e, e ∈ map.entries ↔ e ∈ layOut file (Position.origin.after (front format)) .origin ss := by
  refine ⟨_, rfl, fun e => ?_⟩
  rw [entries_ofEntries, mem_stableSort]
  cases format <;> rfl

/-- How a script is compiled: the segments that it is cut into, and the lines at the end. -/
def Divides (format : ModuleFormat) (source : String) (ss : List Segment) (footer : List String) :
    Prop :=
  ∃ items, parse source = .ok items ∧ cut 0 (edits source.toList format 1 items) source.toList = some ss ∧
    footer = ((edits source.toList format 1 items).map (·.footer)).flatten

theorem compile_eq_ok_iff {format : ModuleFormat} {file source : String} {made : Fragment} :
    compile format file source = .ok made ↔
      ∃ ss footer, Divides format source ss footer ∧ assemble format file source ss footer = made := by
  unfold compile Divides
  cases hparse : parse source with
  | error offset => simp
  | ok items =>
    cases hcut : cut 0 (edits source.toList format 1 items) source.toList with
    | none => simp [hcut]
    | some ss =>
      constructor
      · intro h
        exact ⟨ss, _, ⟨items, rfl, hcut, rfl⟩, by simpa [hcut] using h⟩
      · rintro ⟨ss', footer, ⟨items', hitems, hcut', rfl⟩, rfl⟩
        obtain rfl := Except.ok.inj hitems
        obtain rfl := Option.some.inj (hcut.symm.trans hcut')
        simp [hcut]

def compiledText? (format : ModuleFormat) (source : String) : Option (List Char) := do
  let items ← (parse source).toOption
  let es := edits source.toList format 1 items
  let ss ← cut 0 es source.toList
  let body := front format ++ outputs ss
  return body ++ footerText body (es.map (·.footer)).flatten

theorem exists_compile_of_any {format : ModuleFormat} {source : String} {p : List Char → Bool}
    (h : (compiledText? format source).any p = true) (file : String) :
    ∃ made, compile format file source = .ok made ∧ p made.code.toList = true := by
  obtain ⟨text, htext, hp⟩ := (Option.any_eq_true _ _).1 h
  obtain ⟨items, hitems, htext⟩ := Option.bind_eq_some_iff.1 htext
  obtain ⟨ss, hss, htext⟩ := Option.bind_eq_some_iff.1 htext
  obtain rfl := Option.some.inj htext
  have hparse : parse source = .ok items := by
    cases hparse : parse source with
    | error offset =>
      rw [hparse] at hitems
      cases hitems
    | ok items' =>
      rw [hparse] at hitems
      rw [Option.some.inj hitems]
  refine ⟨_, compile_eq_ok_iff.2 ⟨ss, _, ⟨items, hparse, hss, rfl⟩, rfl⟩, ?_⟩
  rw [code_assemble]
  exact hp

/-- What is cut at an edit: what stands before it, what it replaces, and the rest. -/
theorem cut_cons_eq_some_iff {p : Nat} {e : Edit} {es : List Edit} {rest : List Char}
    {ss : List Segment} : cut p (e :: es) rest = some ss ↔
      ∃ before old rest' more, rest = before ++ (old ++ rest') ∧
        p + byteLength before = e.range.start ∧ e.range.start + byteLength old = e.range.stop ∧
        cut e.range.stop es rest' = some more ∧
        ss = .copied before :: .replaced old (e.text.toList ++ old.filter (· = '\n')) :: more := by
  rw [cut]
  constructor
  · intro h
    split at h
    · obtain ⟨⟨before, rest₁⟩, hbefore, h⟩ := Option.bind_eq_some_iff.1 h
      obtain ⟨⟨old, rest₂⟩, hold, h⟩ := Option.bind_eq_some_iff.1 h
      obtain ⟨more, hmore, h⟩ := Option.bind_eq_some_iff.1 h
      obtain ⟨hrest, hsize⟩ := splitBytes_eq_some_iff.1 hbefore
      obtain ⟨hrest₁, hsize'⟩ := splitBytes_eq_some_iff.1 hold
      refine ⟨before, old, rest₂, more, by rw [hrest, hrest₁], by omega, by omega, hmore, ?_⟩
      exact (Option.some.inj h).symm
    · cases h
  · rintro ⟨before, old, rest', more, rfl, hbefore, hold, hmore, rfl⟩
    have hfirst : splitBytes (e.range.start - p) (before ++ (old ++ rest')) =
        some (before, old ++ rest') := splitBytes_eq_some_iff.2 ⟨rfl, by omega⟩
    have hsecond : splitBytes (e.range.stop - e.range.start) (old ++ rest') = some (old, rest') :=
      splitBytes_eq_some_iff.2 ⟨rfl, by omega⟩
    rw [if_pos ⟨by omega, by omega⟩, hfirst]
    dsimp only [Option.bind_eq_bind, Option.bind_some]
    rw [hsecond]
    dsimp only [Option.bind_some]
    rw [hmore]
    rfl

/-- Cutting loses nothing. -/
theorem sources_of_cut {offset : Nat} {es : List Edit} {rest : List Char} {ss : List Segment}
    (h : cut offset es rest = some ss) : sources ss = rest := by
  induction es generalizing offset rest ss with
  | nil =>
    obtain rfl := Option.some.inj h
    simp [sources, Segment.source]
  | cons e es ih =>
    obtain ⟨before, old, rest', more, rfl, -, -, hmore, rfl⟩ := cut_cons_eq_some_iff.1 h
    rw [← ih hmore]
    simp [sources, Segment.source]

theorem sources_of_divides {format : ModuleFormat} {source : String} {ss : List Segment}
    {footer : List String} (h : Divides format source ss footer) : sources ss = source.toList := by
  obtain ⟨items, -, hcut, -⟩ := h
  exact sources_of_cut hcut

end SingleFile.Script
