import SingleFile.Proofs.Json.RoundTrip
import SingleFile.Proofs.SourceMap.Lookup
import SingleFile.Proofs.SourceMap.Vlq
import SingleFile.Proofs.Text.Search
import SingleFile.SourceMap.Reader
import SingleFile.SourceMap.Writer

/-!
# Reading a map that was written

`readSegment_segment` reads one mapping back, from the values of the mapping before it.  What the
writer has still to write is what the reader has still to read (`readsBack_of_ordered`), and so the
mappings of a map are read back, apart from those that repeat the one before them
(`readLines_segments`).  **`parse_toJson`** says so of the whole map.
-/

namespace SingleFile.SourceMap

/-! ### One segment -/

/-- A mapping that can be written: it points to a source, and its numbers have 32 bits. -/
structure WritableMapping (sourceCount nameCount : Nat) (m : Mapping) : Prop where
  range : m.range = false
  source : ∃ i, m.source = some i ∧ i < sourceCount
  name : ∀ i ∈ m.name, i < nameCount
  generated : m.generated.column < 2 ^ 32
  original : m.original.line < 2 ^ 32 ∧ m.original.column < 2 ^ 32

/-- A map that can be written: its mappings can and are in order. -/
structure Writable (map : SourceMap) : Prop where
  ordered : map.mappings.Pairwise fun a b => a.generated ≤ b.generated
  mapping : ∀ m ∈ map.mappings, WritableMapping map.sources.length map.names.length m
  sources : map.sources.length ≤ 2 ^ 32
  names : map.names.length ≤ 2 ^ 32
  ignored : map.ignored = []
  debugId : map.debugId = none

/-- The values that the reader keeps of the mapping written last. -/
def Written.running (last : Written) : Running :=
  ⟨last.source, last.original.line, last.original.column, last.name⟩

structure Written.Words (last : Written) : Prop where
  column : last.generated.column < 2 ^ 32
  source : last.source < 2 ^ 32
  line : last.original.line < 2 ^ 32
  originalColumn : last.original.column < 2 ^ 32
  name : last.name < 2 ^ 32

theorem Written.Words.startLine {last : Written} (h : last.Words) (line : Nat) :
    Written.Words { last with generated := ⟨line, 0⟩ } :=
  ⟨Nat.two_pow_pos 32, h.source, h.line, h.originalColumn, h.name⟩

theorem Written.words_first : ({} : Written).Words := by
  constructor <;> exact Nat.two_pow_pos 32

theorem wordAdd_sub {a b : Nat} (h : a < 2 ^ 32) : wordAdd b ((a : Int) - b) = a := by
  unfold wordAdd
  rw [show (b : Int) + ((a : Int) - b) = a by omega, Int.emod_eq_of_lt (by omega) (by omega)]
  rfl

theorem small_sub {a b : Nat} (ha : a < 2 ^ 32) (hb : b < 2 ^ 32) : Vlq.Small ((a : Int) - b) := by
  unfold Vlq.Small
  omega

section Segment

variable {sourceCount nameCount : Nat} {last : Written} {m : Mapping}

theorem segment_unnamed (last : Written) (g o : Position) (i : Nat) (r : Bool) :
    segment last ⟨g, o, some i, none, r⟩ =
      (([(g.column : Int) - last.generated.column, (i : Int) - last.source,
          (o.line : Int) - last.original.line, (o.column : Int) - last.original.column] :
            List Int).flatMap Vlq.encode, { last with generated := g, source := i, original := o }) := by
  simp [segment, diff]

theorem segment_named (last : Written) (g o : Position) (i n : Nat) (r : Bool) :
    segment last ⟨g, o, some i, some n, r⟩ =
      (([(g.column : Int) - last.generated.column, (i : Int) - last.source,
          (o.line : Int) - last.original.line, (o.column : Int) - last.original.column,
          (n : Int) - last.name] : List Int).flatMap Vlq.encode, ⟨g, i, o, n⟩) := by
  simp [segment, diff]

theorem exists_flatMap_segment (last : Written) {m : Mapping}
    (hm : WritableMapping sourceCount nameCount m) :
    ∃ n ns, (segment last m).1 = (n :: ns).flatMap Vlq.encode := by
  obtain ⟨g, o, source, name, range⟩ := m
  obtain ⟨i, rfl, -⟩ := hm.source
  cases name with
  | none => exact ⟨_, _, by rw [segment_unnamed]⟩
  | some n => exact ⟨_, _, by rw [segment_named]⟩

/-- Something is written of every mapping. -/
theorem segment_ne_nil (last : Written) (hm : WritableMapping sourceCount nameCount m) :
    (segment last m).1 ≠ [] := by
  obtain ⟨n, ns, h⟩ := exists_flatMap_segment last hm
  rw [h, List.flatMap_cons]
  exact fun h => Vlq.encode_ne_nil n (List.append_eq_nil_iff.1 h).1

/-- No separator stands in what is written of a mapping. -/
theorem mem_segment (last : Written) (hm : WritableMapping sourceCount nameCount m) {c : Char}
    (hc : c ∈ (segment last m).1) : c ≠ ',' ∧ c ≠ ';' := by
  obtain ⟨n, ns, h⟩ := exists_flatMap_segment last hm
  rw [h] at hc
  obtain ⟨k, -, hk⟩ := List.mem_flatMap.1 hc
  exact Vlq.mem_encode hk

theorem generated_segment (last : Written) (m : Mapping) :
    (segment last m).2.generated = m.generated := by
  unfold segment
  cases m.source with
  | none => rfl
  | some i => cases m.name <;> rfl

variable (hlast : last.Words) (hm : WritableMapping sourceCount nameCount m)
  (hsources : sourceCount ≤ 2 ^ 32) (hnames : nameCount ≤ 2 ^ 32)

include hlast hm hsources hnames

theorem words_segment : (segment last m).2.Words := by
  obtain ⟨g, o, source, name, range⟩ := m
  obtain ⟨i, rfl, hi⟩ := hm.source
  cases name with
  | none =>
    rw [segment_unnamed]
    exact ⟨hm.generated, Nat.lt_of_lt_of_le hi hsources, hm.original.1, hm.original.2, hlast.name⟩
  | some n =>
    rw [segment_named]
    exact ⟨hm.generated, Nat.lt_of_lt_of_le hi hsources, hm.original.1, hm.original.2,
      Nat.lt_of_lt_of_le (hm.name n rfl) hnames⟩

/-- A mapping is read back from the differences to the one before it. -/
theorem readSegment_segment :
    readSegment sourceCount nameCount m.generated.line last.generated.column false last.running
      (segment last m).1 = .ok (m, (segment last m).2.running) := by
  obtain ⟨g, o, source, name, range⟩ := m
  obtain ⟨i, rfl, hi⟩ := hm.source
  obtain rfl : range = false := hm.range
  have hi' : i < 2 ^ 32 := Nat.lt_of_lt_of_le hi hsources
  have hcolumn := small_sub hm.generated hlast.column
  have hsource := small_sub hi' hlast.source
  have hline := small_sub hm.original.1 hlast.line
  have horiginal := small_sub hm.original.2 hlast.originalColumn
  have hg := wordAdd_sub (b := last.generated.column) hm.generated
  have hs := wordAdd_sub (b := last.source) hi'
  have hl := wordAdd_sub (b := last.original.line) hm.original.1
  have hc := wordAdd_sub (b := last.original.column) hm.original.2
  cases name with
  | none =>
    rw [segment_unnamed, readSegment, Vlq.decode_encode (by simp) (by
      intro k hk
      simp only [List.mem_cons, List.not_mem_nil, or_false] at hk
      rcases hk with rfl | rfl | rfl | rfl <;> assumption)]
    simp only [Written.running] at *
    simp [Except.mapError, hg, hs, hl, hc, Nat.not_le.2 hi, bind, Except.bind, pure, Except.pure]
  | some n =>
    have hn : n < nameCount := hm.name n rfl
    have hn' : n < 2 ^ 32 := Nat.lt_of_lt_of_le hn hnames
    have hname := small_sub hn' hlast.name
    have hr := wordAdd_sub (b := last.name) hn'
    rw [segment_named, readSegment, Vlq.decode_encode (by simp) (by
      intro k hk
      simp only [List.mem_cons, List.not_mem_nil, or_false] at hk
      rcases hk with rfl | rfl | rfl | rfl | rfl <;> assumption)]
    simp only [Written.running] at *
    simp [Except.mapError, hg, hs, hl, hc, hr, Nat.not_le.2 hi, Nat.not_le.2 hn, bind, Except.bind,
      pure, Except.pure]

end Segment

/-! ### All segments -/

/-- The mappings that do not repeat the one before them. -/
def keptAfter (map : SourceMap) : Option Mapping → List Mapping → List Mapping
  | _, [] => []
  | none, m :: ms => m :: keptAfter map (some m) ms
  | some p, m :: ms =>
    if map.entry m = map.entry p then keptAfter map (some m) ms else m :: keptAfter map (some m) ms

theorem map_entry_keptAfter (map : SourceMap) (p : Option Mapping) (ms : List Mapping) :
    (keptAfter map p ms).map map.entry = distinctAfter (p.map map.entry) (ms.map map.entry) := by
  induction ms generalizing p with
  | nil => cases p <;> rfl
  | cons m ms ih =>
    have hm := ih (some m)
    cases p with
    | none => rw [keptAfter, List.map_cons, hm]; rfl
    | some p =>
      rw [keptAfter, List.map_cons, Option.map_some, distinctAfter]
      split
      · exact hm
      · rw [List.map_cons, hm]; rfl

theorem keptAfter_sublist (map : SourceMap) (p : Option Mapping) (ms : List Mapping) :
    (keptAfter map p ms).Sublist ms := by
  induction ms generalizing p with
  | nil => cases p <;> exact .slnil
  | cons m ms ih =>
    cases p with
    | none => exact (ih (some m)).cons_cons m
    | some p =>
      rw [keptAfter]
      split
      · exact (ih (some m)).cons m
      · exact (ih (some m)).cons_cons m

/-- Reads what is left of a line, and the lines below it. -/
def readRest (sourceCount nameCount line index column : Nat) (run : Running)
    (pieces lines : List (List Char)) : Except MapError (List Mapping) := do
  let (ms, run) ← readSegments sourceCount nameCount line [] index column run pieces
  pure (ms ++ (← readLines sourceCount nameCount (line + 1) run lines []))

section Lines

variable {sourceCount nameCount : Nat}

/-- Bit fields that are empty make no range. -/
theorem readLines_fields {line : Nat} {run : Running} {lines fields : List (List Char)}
    (h : ∀ f ∈ fields, f = []) :
    readLines sourceCount nameCount line run lines fields =
      readLines sourceCount nameCount line run lines [] := by
  induction lines generalizing line run fields with
  | nil => rfl
  | cons text lines ih =>
    have htail : ∀ f ∈ fields.tail, f = [] := fun f hf => h f (List.mem_of_mem_tail hf)
    have hhead : fields.headD [] = [] := by
      cases fields with
      | nil => rfl
      | cons f fs => exact h f List.mem_cons_self
    rw [readLines, readLines, hhead]
    simp only [ih htail, List.tail_nil, List.headD_nil]

theorem readLines_cons {line : Nat} {run : Running} {text : List Char} {lines : List (List Char)}
    (h : text ≠ []) :
    readLines sourceCount nameCount line run (text :: lines) [] =
      readRest sourceCount nameCount line 0 0 run (splitAt ',' text) lines := by
  rw [readLines, if_neg (by simpa using h)]
  rfl

theorem readLines_replicate (line n : Nat) (run : Running) (lines : List (List Char)) :
    readLines sourceCount nameCount line run (List.replicate n [] ++ lines) [] =
      readLines sourceCount nameCount (line + n) run lines [] := by
  induction n generalizing line with
  | zero => rfl
  | succ n ih =>
    rw [List.replicate_succ, List.cons_append, readLines, List.isEmpty_nil, if_pos rfl, List.tail_nil,
      ih, Nat.add_assoc, Nat.add_comm 1 n]

theorem readRest_nil (line index column n : Nat) (run : Running) (lines : List (List Char)) :
    readRest sourceCount nameCount line index column run [] (List.replicate n [] ++ lines) =
      readLines sourceCount nameCount (line + 1 + n) run lines [] := by
  rw [readRest, readSegments]
  show ((readLines _ _ _ _ _ _).bind fun ms => Except.ok ([] ++ ms)) = _
  rw [readLines_replicate]
  cases readLines sourceCount nameCount (line + 1 + n) run lines [] <;> rfl

/-- A segment is read, and the rest is read after it. -/
theorem readRest_cons {last : Written} {m : Mapping} (index : Nat) (pieces lines : List (List Char))
    (hlast : last.Words) (hm : WritableMapping sourceCount nameCount m)
    (hsources : sourceCount ≤ 2 ^ 32) (hnames : nameCount ≤ 2 ^ 32) :
    readRest sourceCount nameCount m.generated.line index last.generated.column last.running
        ((segment last m).1 :: pieces) lines =
      (readRest sourceCount nameCount m.generated.line (index + 1) m.generated.column
        (segment last m).2.running pieces lines).map (m :: ·) := by
  have hread := readSegment_segment hlast hm hsources hnames
  have hnext (ms : List Mapping) (run : Running) :
      ((readLines sourceCount nameCount (m.generated.line + 1) run lines []).bind fun rest =>
        Except.ok (m :: ms ++ rest)) =
      ((readLines sourceCount nameCount (m.generated.line + 1) run lines []).bind fun rest =>
        Except.ok (ms ++ rest)).map (m :: ·) := by
    cases readLines sourceCount nameCount (m.generated.line + 1) run lines [] <;> rfl
  rw [readRest, readSegments, if_neg (by simpa using segment_ne_nil last hm), List.getD_nil, hread]
  show ((((readSegments _ _ _ _ _ _ _ pieces).bind _)).bind _) = Except.map _ ((readSegments _ _ _ _ _ _ _ pieces).bind _)
  cases readSegments sourceCount nameCount m.generated.line [] (index + 1) m.generated.column
    (segment last m).2.running pieces with
  | error e => rfl
  | ok r => exact hnext r.1 r.2

end Lines

/-! ### The run -/

section Run

variable {map : SourceMap} {m p : Mapping} {ms : List Mapping} {last : Written}

/-- What is still to be written behind a mapping is what is still to be read, on the line of the
mapping. -/
def ReadsBack (map : SourceMap) (p : Mapping) (last : Written) (ms : List Mapping) : Prop :=
  ∃ h lines pieces, splitAt ';' (segments map last (some p) ms) = h :: lines ∧
    splitAt ',' h = [] :: pieces ∧ ∀ index,
      readRest map.sources.length map.names.length last.generated.line index last.generated.column
        last.running pieces lines = .ok (keptAfter map (some p) ms)

/-- Nothing is written of a mapping that repeats the one before it. -/
theorem readsBack_repeated (hp : p.generated = last.generated) (hsame : map.entry m = map.entry p)
    (h : map.ReadsBack m last ms) : map.ReadsBack p last (m :: ms) := by
  have hline : m.generated.line - last.generated.line = 0 := by
    have hgenerated : m.generated = p.generated := congrArg MapEntry.generated hsame
    rw [hgenerated, hp, Nat.sub_self]
  unfold ReadsBack
  rw [segments, if_pos hline, keptAfter, if_pos hsame, if_pos hsame]
  exact h

section Words

variable (hlast : last.Words) (hm : WritableMapping map.sources.length map.names.length m)
  (hsources : map.sources.length ≤ 2 ^ 32) (hnames : map.names.length ≤ 2 ^ 32)

include hlast hm hsources hnames

/-- On the line of the mapping before it, a mapping is written behind a comma. -/
theorem readsBack_sameLine (hline : m.generated.line = last.generated.line)
    (hsame : map.entry m ≠ map.entry p) (h : map.ReadsBack m (segment last m).2 ms) :
    map.ReadsBack p last (m :: ms) := by
  obtain ⟨h, lines, pieces, hsplit, hpieces, hread⟩ := h
  have hsemi : ';' ∉ ',' :: (segment last m).1 := fun hc => by
    rcases List.mem_cons.1 hc with hc | hc
    · exact absurd hc (by decide)
    · exact (mem_segment last hm hc).2 rfl
  have hcomma : ',' ∉ (segment last m).1 := fun hc => (mem_segment last hm hc).1 rfl
  unfold ReadsBack
  rw [segments, if_pos (by rw [hline, Nat.sub_self]), keptAfter, if_neg hsame]
  dsimp only
  rw [if_neg hsame]
  refine ⟨_, lines, (segment last m).1 :: pieces, splitAt_append hsemi hsplit, ?_, fun index => ?_⟩
  · rw [List.cons_append, splitAt_cons_sep, splitAt_append hcomma hpieces, List.append_nil]
  · rw [generated_segment] at hread
    rw [← hline, readRest_cons index pieces lines hlast hm hsources hnames, hread]
    rfl

/-- A line that starts with a mapping is read from its segment on. -/
theorem ReadsBack.readLines (hstart : last.generated = ⟨m.generated.line, 0⟩)
    (h : map.ReadsBack m (segment last m).2 ms) :
    readLines map.sources.length map.names.length m.generated.line last.running
        (splitAt ';' ((segment last m).1 ++ segments map (segment last m).2 (some m) ms)) [] =
      .ok (m :: keptAfter map (some m) ms) := by
  obtain ⟨h, lines, pieces, hsplit, hpieces, hread⟩ := h
  have hsemi : ';' ∉ (segment last m).1 := fun hc => (mem_segment last hm hc).2 rfl
  have hcomma : ',' ∉ (segment last m).1 := fun hc => (mem_segment last hm hc).1 rfl
  have hne : (segment last m).1 ++ h ≠ [] := by simp [segment_ne_nil last hm]
  have hfirst := readRest_cons 0 pieces lines hlast hm hsources hnames
  rw [generated_segment] at hread
  rw [hstart, hread] at hfirst
  rw [splitAt_append hsemi hsplit, readLines_cons hne, splitAt_append hcomma hpieces,
    List.append_nil, hfirst]
  rfl

end Words

variable (hsources : map.sources.length ≤ 2 ^ 32) (hnames : map.names.length ≤ 2 ^ 32)

include hsources hnames

/-- On a later line, a mapping is written behind as many semicolons as there are lines between. -/
theorem readsBack_laterLine (hlast : last.Words)
    (hm : WritableMapping map.sources.length map.names.length m) (hp : p.generated = last.generated)
    (hlt : last.generated.line < m.generated.line)
    (h : map.ReadsBack m (segment { last with generated := ⟨m.generated.line, 0⟩ } m).2 ms) :
    map.ReadsBack p last (m :: ms) := by
  have hlines : m.generated.line - last.generated.line ≠ 0 := by omega
  have hsame : map.entry m ≠ map.entry p := by
    intro hsame
    have hgenerated : m.generated = p.generated := congrArg MapEntry.generated hsame
    rw [hgenerated, hp] at hlt
    exact lt_irrefl _ hlt
  obtain ⟨n, hn⟩ := Nat.exists_eq_succ_of_ne_zero hlines
  have hline := h.readLines (hlast.startLine _) hm hsources hnames rfl
  unfold ReadsBack
  rw [segments, if_neg hlines, keptAfter, if_neg hsame]
  dsimp only
  rw [List.append_assoc, splitAt_replicate_append, hn, List.replicate_succ, List.cons_append]
  refine ⟨[], _, [], rfl, rfl, fun index => ?_⟩
  rw [readRest_nil, show last.generated.line + 1 + n = m.generated.line by omega]
  exact hline

/-- **What is still to be written is what is still to be read.** -/
theorem readsBack_of_ordered (hlast : last.Words) (hp : p.generated = last.generated)
    (hms : ∀ m ∈ ms, WritableMapping map.sources.length map.names.length m)
    (hordered : (p :: ms).Pairwise fun a b => a.generated ≤ b.generated) :
    map.ReadsBack p last ms := by
  induction ms generalizing p last with
  | nil => exact ⟨[], [], [], rfl, rfl, fun index => rfl⟩
  | cons m ms ih =>
    obtain ⟨hhead, htail⟩ := List.pairwise_cons.1 hordered
    have hm := hms m List.mem_cons_self
    have hrest {last : Written} (hlast : last.Words) (hgenerated : m.generated = last.generated) :
        map.ReadsBack m last ms :=
      ih hlast hgenerated (fun x hx => hms x (List.mem_cons_of_mem m hx)) htail
    have hwritten {last : Written} (hlast : last.Words) : map.ReadsBack m (segment last m).2 ms :=
      hrest (words_segment hlast hm hsources hnames) (generated_segment last m).symm
    have hle : last.generated.line ≤ m.generated.line := by
      have := hhead m List.mem_cons_self
      rw [hp, Position.le_iff] at this
      omega
    by_cases hsame : map.entry m = map.entry p
    · refine readsBack_repeated hp hsame (hrest hlast ?_)
      rw [← hp]
      exact congrArg MapEntry.generated hsame
    rcases Nat.lt_or_eq_of_le hle with hlt | hline
    · exact readsBack_laterLine hsources hnames hlast hm hp hlt (hwritten (hlast.startLine _))
    · exact readsBack_sameLine hlast hm hsources hnames hline.symm hsame (hwritten hlast)

/-- The mappings of a map are read back, apart from those that repeat the one before them. -/
theorem readLines_segments (hmap : Writable map) :
    readLines map.sources.length map.names.length 0 {}
      (splitAt ';' (segments map {} none map.mappings)) [] = .ok (keptAfter map none map.mappings) := by
  have hordered := hmap.ordered
  have hmapping := hmap.mapping
  cases hms : map.mappings with
  | nil => rfl
  | cons m ms =>
    rw [hms] at hordered hmapping
    have hm := hmapping m List.mem_cons_self
    let start : Written := { generated := ⟨m.generated.line, 0⟩ }
    have hstart : start.Words := Written.words_first.startLine _
    have hrest : map.ReadsBack m (segment start m).2 ms :=
      readsBack_of_ordered hsources hnames (words_segment hstart hm hsources hnames)
        (generated_segment start m).symm (fun x hx => hmapping x (List.mem_cons_of_mem m hx)) hordered
    have htext : segments map {} none (m :: ms) = List.replicate m.generated.line ';' ++
        ((segment start m).1 ++ segments map (segment start m).2 (some m) ms) := by
      rw [segments]
      by_cases hline : m.generated.line = 0
      · have hsame : start = {} := by
          show Written.mk ⟨m.generated.line, 0⟩ 0 .origin 0 = {}
          rw [hline]
          rfl
        rw [if_pos (by rw [hline]; rfl), hline, hsame]
        rfl
      · rw [if_neg (by simpa using hline), ← List.append_assoc]
        rfl
    rw [htext, splitAt_replicate_append, readLines_replicate, Nat.zero_add, keptAfter]
    exact hrest.readLines hstart hm hsources hnames rfl

end Run

/-! ### The document -/

/-- The contents as they are written: none at all where no source has one. -/
def writtenContents (map : SourceMap) : List (Option String) :=
  let contents := (List.range map.sources.length).map map.contentAt
  if contents.any (·.isSome) then contents else []

/-- What is read of a map that was written. -/
def readBack (map : SourceMap) : SourceMap :=
  { map with
    contents := map.writtenContents
    mappings := keptAfter map none map.mappings }

theorem entries_readBack (map : SourceMap) : map.readBack.entries = distinctAfter none map.entries :=
  map_entry_keptAfter map none map.mappings

theorem fitsItems_map_string (depth : Nat) (xs : List String) :
    Json.FitsItems depth (xs.map .string) := by
  induction xs with
  | nil => trivial
  | cons x xs ih => exact ⟨trivial, ih⟩

theorem fitsItems_contents (depth : Nat) (xs : List (Option String)) :
    Json.FitsItems depth (xs.map Json.ofOption) := by
  induction xs with
  | nil => trivial
  | cons x xs ih => exact ⟨by cases x <;> trivial, ih⟩

/-- What is written as a list is read as one. -/
theorem asList_map {α β : Type} {write : α → Json} {read : Json → Option β} {f : α → β}
    (h : ∀ x, read (write x) = some (f x)) (xs : List α) :
    Json.asList read (.array (xs.map write)) = some (xs.map f) := by
  show (xs.map write).mapM read = some (xs.map f)
  induction xs with
  | nil => rfl
  | cons x xs ih =>
    rw [List.map_cons, List.mapM_cons, h, ih]
    rfl

section Fields

variable {α : Type} {fields : List (String × Json)} {name : String} {default : α}

theorem fieldOr_of_missing (hlookup : Json.lookup name fields = none) (read : Json → Option α) :
    Json.fieldOr fields name default read = some default := by
  unfold Json.fieldOr
  rw [hlookup]

theorem fieldOr_of_lookup {x : α} {read : Json → Option α} {v : Json}
    (hlookup : Json.lookup name fields = some v) (hread : read v = some x) :
    Json.fieldOr fields name default read = some x := by
  unfold Json.fieldOr
  rw [hlookup]
  exact hread

/-- A field that is left out where there is nothing to write is read as what there was. -/
theorem fieldOr_of_lookup_map {write : α → Json} {read : Json → Option (Option α)} {o : Option α}
    (hlookup : Json.lookup name fields = o.map write) (hread : ∀ x, read (write x) = some (some x)) :
    Json.fieldOr fields name none read = some o := by
  cases o with
  | none => exact fieldOr_of_missing hlookup read
  | some x => exact fieldOr_of_lookup hlookup (hread x)

end Fields

section Document

variable {map : SourceMap} (hmap : Writable map)

include hmap

theorem toDocument_of_writable : map.toDocument = .object (
    [("version", .number (.natural 3))] ++
    (map.file.map fun s => ("file", Json.string s)).toList ++
    [("sources", .array (map.sources.map .string))] ++
    (map.sourceRoot.map fun s => ("sourceRoot", Json.string s)).toList ++
    (if map.writtenContents.isEmpty then []
     else [("sourcesContent", .array (map.writtenContents.map Json.ofOption))]) ++
    [("names", .array (map.names.map .string))] ++
    [("mappings", .string (String.ofList (segments map {} none map.mappings)))]) := by
  have hrange : map.mappings.any (·.range) = false := by
    rw [List.any_eq_false]
    intro m hm
    rw [(hmap.mapping m hm).range]
    simp
  unfold toDocument writtenContents
  rw [hmap.ignored, hmap.debugId, hrange]
  simp only [Bool.false_eq_true, if_false, List.append_nil, List.isEmpty_nil, if_true,
    Option.map_none, Option.toList_none]
  split
  · next h =>
    have hne : ((List.range map.sources.length).map map.contentAt).isEmpty = false := by
      rw [Bool.eq_false_iff]
      intro hempty
      rw [List.isEmpty_iff.1 hempty] at h
      exact absurd h (by simp)
    rw [hne, if_neg (by simp)]
    congr 10
  · rfl

theorem fits_toDocument : Json.Fits Json.depthLimit map.toDocument := by
  have hstrings := fitsItems_map_string
  have hcontents := fitsItems_contents
  rw [toDocument_of_writable hmap]
  refine ⟨by decide, ?_⟩
  cases map.file <;> cases map.sourceRoot <;> cases map.writtenContents.isEmpty <;>
    simp [Json.FitsFields, Json.Fits, Json.maxNatural, Json.depthLimit, hstrings, hcontents]

omit hmap in
/-- A document is read from what its fields hold. -/
theorem read_of_lookup {fields : List (String × Json)} {file root : Option String}
    {sources names : List String} {contents : List (Option String)} {mappings : String}
    (hknown : Json.objectFields fieldNames (.object fields) = some fields)
    (hversion : Json.lookup "version" fields = some (.number (.natural 3)))
    (hfile : Json.lookup "file" fields = file.map .string)
    (hsources : Json.lookup "sources" fields = some (.array (sources.map .string)))
    (hroot : Json.lookup "sourceRoot" fields = root.map .string)
    (hcontents : Json.lookup "sourcesContent" fields =
      if contents.isEmpty then none else some (.array (contents.map Json.ofOption)))
    (hnames : Json.lookup "names" fields = some (.array (names.map .string)))
    (hmappings : Json.lookup "mappings" fields = some (.string mappings))
    (hmissing : ∀ name ∈ ["sections", "rangeMappings", "ignoreList", "debug_id", "debugId"],
      Json.lookup name fields = none) (readSections : Json → Option (List Json)) :
    Document.read readSections (.object fields) = some {
      file, sources, sourceRoot := root, contents, sections := none, names, ranges := "", mappings
      ignored := [], debugId := none } := by
  have hstring (x : String) : Json.optional Json.asString (.string x) = some (some x) := rfl
  have hname (x : String) : some (readName (.string x)) = some (id x) := rfl
  have hversion : Json.fieldOr fields "version" none (Json.optional Json.asWord) = some (some 3) :=
    fieldOr_of_lookup hversion rfl
  have hsources : Json.fieldOr fields "sources" none
      (Json.optional (Json.asList (Json.optional Json.asString))) =
        some (some (sources.map some)) :=
    fieldOr_of_lookup hsources (congrArg (Option.map some) (asList_map hstring sources))
  have hroot : Json.fieldOr fields "sourceRoot" none (Json.optional Json.asString) = some root :=
    fieldOr_of_lookup_map hroot fun _ => rfl
  obtain ⟨read, hread, rfl⟩ : ∃ read, Json.fieldOr fields "sourcesContent" none
      (Json.optional (Json.asList (Json.optional Json.asString))) = some read ∧
        read.getD [] = contents := by
    cases hempty : contents.isEmpty with
    | true =>
      rw [hempty] at hcontents
      exact ⟨none, fieldOr_of_missing hcontents _, (List.isEmpty_iff.1 hempty).symm⟩
    | false =>
      have hcontent (x : Option String) :
          Json.optional Json.asString (Json.ofOption x) = some (id x) := by
        cases x <;> rfl
      have hlist := asList_map hcontent contents
      rw [List.map_id] at hlist
      rw [hempty] at hcontents
      exact ⟨some contents, fieldOr_of_lookup hcontents (congrArg (Option.map some) hlist), rfl⟩
  have hlist : Json.asList (fun v => some (readName v)) (.array (names.map .string)) =
      some (names.map id) := asList_map hname names
  have hnames : Json.fieldOr fields "names" none
      (Json.optional (Json.asList fun v => some (readName v))) = some (some (names.map id)) :=
    fieldOr_of_lookup hnames (congrArg (Option.map some) hlist)
  have hmappings : Json.fieldOr fields "mappings" none (Json.optional Json.asString) =
      some (some mappings) :=
    fieldOr_of_lookup hmappings rfl
  have hnone {α : Type} {name : String} {read : Json → Option (Option α)}
      (h : name ∈ ["sections", "rangeMappings", "ignoreList", "debug_id", "debugId"]) :
      Json.fieldOr fields name none read = some none := fieldOr_of_missing (hmissing name h) read
  have hgetD : (sources.map some).map (·.getD "") = sources := by
    rw [List.map_map]
    exact List.map_id sources
  unfold Document.read
  rw [hknown, Option.bind_eq_bind, Option.bind_some]
  simp only [hversion, hsources, hroot, hread, hnames, hmappings,
    hnone (show "sections" ∈ _ by simp), hnone (show "rangeMappings" ∈ _ by simp),
    hnone (show "ignoreList" ∈ _ by simp), hnone (show "debug_id" ∈ _ by simp),
    hnone (show "debugId" ∈ _ by simp), Option.bind_eq_bind, Option.bind_some, Option.getD_some,
    Option.getD_none, hgetD, List.map_id]
  rw [fieldOr_of_lookup_map hfile fun _ => rfl]
  rfl

/-- The fields of a written map are read back. -/
theorem read_toDocument (readSections : Json → Option (List Json)) :
    Document.read readSections map.toDocument = some {
      file := map.file
      sources := map.sources
      sourceRoot := map.sourceRoot
      contents := map.writtenContents
      sections := none
      names := map.names
      ranges := ""
      mappings := String.ofList (segments map {} none map.mappings)
      ignored := []
      debugId := none } := by
  rw [toDocument_of_writable hmap]
  generalize map.writtenContents = contents
  cases map.file <;> cases map.sourceRoot <;> cases hempty : contents.isEmpty <;>
    refine read_of_lookup rfl rfl rfl rfl rfl (by rw [hempty]; rfl) rfl rfl (fun name hname => ?_)
      readSections <;>
    simp only [List.mem_cons, List.not_mem_nil, or_false] at hname <;>
    rcases hname with rfl | rfl | rfl | rfl | rfl <;> rfl

theorem ofJson_toDocument : ofJson map.toDocument = .ok map.readBack := by
  have hlines := readLines_segments hmap.sources hmap.names hmap
  have hsorted : sortMappings (keptAfter map none map.mappings) = keptAfter map none map.mappings :=
    stableSort_of_pairwise ((hmap.ordered.sublist (keptAfter_sublist map none map.mappings)).imp
      fun h => decide_eq_true h)
  have hfields : ∀ f ∈ splitAt ';' "".toList, f = [] := by decide
  unfold ofJson Json.depthLimit
  rw [Document.ofJson, read_toDocument hmap]
  simp only [Option.isSome_none, Bool.false_eq_true, if_false, ofDocument, String.toList_ofList,
    readLines_fields hfields, hlines, bind, Except.bind, pure, Except.pure, hsorted]
  rw [readBack, hmap.ignored, hmap.debugId]
  rfl

/-- **Reading a written map** gives the map, apart from mappings that repeat the one before them. -/
theorem parse_toJson : parse map.toJson = .ok map.readBack := by
  have hread := Json.parse_compact (fits_toDocument hmap)
  have hguard : stripGuard map.toJson.toList = .ok map.toJson.toList := by
    rw [toJson, Json.compact, String.toList_ofList, toDocument_of_writable hmap]
    rfl
  have hchars : Json.parseChars map.toJson.toList = some map.toDocument := hread
  simp only [parse, hguard, bind, Except.bind, hchars]
  exact ofJson_toDocument hmap

/-- What is read of a written map answers like the entries of the map. -/
theorem original?_readBack (p : Position) : map.readBack.original? p = resolve map.entries p := by
  have hrange : ∀ m ∈ map.readBack.mappings, m.range = false := fun m hm =>
    (hmap.mapping m ((keptAfter_sublist map none map.mappings).subset hm)).range
  rw [original?_eq_resolve hrange, entries_readBack, resolve_distinctAfter]

end Document

end SingleFile.SourceMap
