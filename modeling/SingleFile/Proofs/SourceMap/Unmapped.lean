import SingleFile.Proofs.SourceMap.History

/-!
# Text without mappings

Appending a fragment and composing two maps drop mappings that lead nowhere.  What they governed is
governed then by the last mapping on the line that is kept, so a place resolves to nothing just where no
mapping is kept on its line up to it (`original?_merge_eq_none_iff`).

`unmapped_iff` says so of a fragment that starts on a line of its own, whatever is done to the draft
before and after.  Operations leave the letters of those before them in their order
(`filter_letters_of`), so the letters of a fragment stand behind all that was there before it
(`pairwise_letters_of`), and behind a line break (`mem_break_of_lt`).
-/

namespace SingleFile

/-- A composition resolves a place to nothing just where no mapping is traced on its line up to it. -/
theorem SourceMap.original?_merge_eq_none_iff (old new : SourceMap) (p : Position) :
    (merge old new).original? p = none ↔
      ∀ x ∈ new.entries, x.generated.line = p.line → x.generated ≤ p → old.trace x = none := by
  have hsourced : ∀ e ∈ (merge old new).entries, e.source.isSome = true := by
    intro e he
    obtain ⟨x, -, -, o, -, rfl⟩ := mem_entries_merge_iff.1 he
    rfl
  have hrange : ∀ m ∈ (merge old new).mappings, m.range = false := fun m hm => range_ofEntries hm
  have hordered : Ordered (merge old new).entries := ordered_ofEntries _ _ _ _
  rw [original?_eq_resolve hrange, resolve_eq_none_iff hordered hsourced]
  constructor
  · intro hfar x hx hline hle
    cases htrace : old.trace x with
    | none => rfl
    | some e =>
      obtain ⟨hsource, o, ho, -⟩ := trace_eq_some_iff.1 htrace
      have hmem := mem_entries_merge_iff.2 ⟨x, hx, hsource, o, ho, rfl⟩
      have hnot := hfar _ hmem hline
      exact absurd hle hnot
  · intro htrace e he hline hle
    obtain ⟨x, hx, hsource, o, ho, rfl⟩ := mem_entries_merge_iff.1 he
    have htraced := trace_eq_some_iff.2 ⟨hsource, o, ho, rfl⟩
    rw [htrace x hx hline hle] at htraced
    cases htraced

namespace Fragment

variable {f : Fragment} {e : MapEntry}

theorem mem_sourced :
    e ∈ f.sourced ↔ e.source.isSome = true ∧ ∃ map, f.map = some map ∧ e ∈ map.entries := by
  unfold sourced
  cases f.map with
  | none => simp
  | some map =>
    rw [List.mem_filter, and_comm]
    simp

theorem Placed.onCharacter (h : f.Placed) (he : e ∈ f.sourced) :
    OnCharacter f.code.toList e.generated := by
  obtain ⟨-, map, hmap, hmem⟩ := mem_sourced.1 he
  exact h map hmap e hmem

end Fragment

namespace Draft

/-! ### Letters of a text -/

theorem filter_lettersOf {n m : Nat} (h : n ≤ m) (text : List Char) :
    (lettersOf m text).filter (·.operation < n) = [] := by
  rw [List.filter_eq_nil_iff]
  intro l hl
  rw [operation_of_mem_lettersOf hl]
  simpa using h

/-- A letter has the index of its place. -/
theorem take_of_lettersOf {n : Nat} {text : List Char} {front back : List Letter} {l : Letter}
    (h : lettersOf n text = front ++ l :: back) : front.map (·.char) = text.take l.index := by
  have htext : text = front.map (·.char) ++ l.char :: back.map (·.char) := by
    rw [← map_char_lettersOf n text, h, List.map_append, List.map_cons]
  have hindex : l.index = front.length := by
    have hget : (lettersOf n text)[front.length]? = some l := by
      rw [h, List.getElem?_append_right (le_refl _), Nat.sub_self, List.getElem?_cons_zero]
    unfold lettersOf at hget
    rw [List.getElem?_map, List.getElem?_zipIdx] at hget
    obtain ⟨x, hx, rfl⟩ := Option.map_eq_some_iff.1 hget
    obtain ⟨c, -, rfl⟩ := Option.map_eq_some_iff.1 hx
    simp
  rw [hindex, htext, List.take_left' (List.length_map _)]

namespace History

/-- The character that an operation wrote at an index of its text stands at a position. -/
def PutAt (h : History) (operation index : Nat) (p : Position) : Prop :=
  ∃ front c back, h.letters = front ++ ⟨c, operation, index⟩ :: back ∧
    p = Position.origin.after (front.map (·.char))

/-- The character of a fragment that a mapping sits on stands at a position. -/
def SitsAt (h : History) (operation : Nat) (f : Fragment) (e : MapEntry) (p : Position) : Prop :=
  ∃ a c r, f.code.toList = a ++ c :: r ∧ e.generated = Position.origin.after a ∧
    h.PutAt operation a.length p

/-! ### The account of operations -/

theorem of_concat (ops : List Operation) (op : Operation) : of (ops ++ [op]) = (of ops).perform op := by
  unfold of
  rw [List.foldl_append]
  rfl

theorem operations_of (ops : List Operation) : (of ops).operations = ops.length := by
  induction ops using List.reverseRecOn with
  | nil => rfl
  | append_singleton ops op ih =>
    rw [of_concat, List.length_append, ← ih]
    rfl

/-- What was brought was brought by the operation with its number. -/
theorem mem_brought_of {ops : List Operation} {b : Brought} :
    b ∈ (of ops).brought ↔
      ops[b.operation]? = some (.fragment b.fragment) ∧ b.entry ∈ b.fragment.sourced := by
  induction ops using List.reverseRecOn with
  | nil => simp [of]
  | append_singleton ops op ih =>
    have hbrought : (of (ops ++ [op])).brought =
        (of ops).brought ++ (appended op).flatMap fun f => f.sourced.map (⟨ops.length, f, ·⟩) := by
      rw [of_concat, ← operations_of]
      rfl
    have hnew : b ∈ ((appended op).flatMap fun f => f.sourced.map (⟨ops.length, f, ·⟩)) ↔
        (b.operation = ops.length ∧ op = .fragment b.fragment) ∧ b.entry ∈ b.fragment.sourced := by
      obtain ⟨operation, fragment, entry⟩ := b
      cases op with
      | fragment f =>
        simp only [appended, List.flatMap_cons, List.flatMap_nil, List.append_nil, List.mem_map,
          Brought.mk.injEq, Operation.fragment.injEq]
        constructor
        · rintro ⟨e, he, rfl, rfl, rfl⟩
          exact ⟨⟨rfl, rfl⟩, he⟩
        · rintro ⟨⟨rfl, rfl⟩, he⟩
          exact ⟨entry, he, rfl, rfl, rfl⟩
      | _ => simp [appended]
    have hget : (ops ++ [op])[b.operation]? = some (.fragment b.fragment) ↔
        ops[b.operation]? = some (.fragment b.fragment) ∨
          (b.operation = ops.length ∧ op = .fragment b.fragment) := by
      rcases Nat.lt_trichotomy b.operation ops.length with hlt | heq | hgt
      · rw [List.getElem?_append_left hlt]
        simp [Nat.ne_of_lt hlt]
      · rw [heq, List.getElem?_concat_length]
        simp
      · rw [List.getElem?_eq_none (by rw [List.length_append]; exact hgt), List.getElem?_eq_none (Nat.le_of_lt hgt)]
        simp [Nat.ne_of_gt hgt]
    rw [hbrought, List.mem_append, ih, hnew, hget, or_and_right]

/-- An operation keeps the letters of those before it in their order. -/
theorem filter_write {n : Nat} {h : History} (hn : n ≤ h.operations) (op : Operation) :
    (h.write op).filter (·.operation < n) = h.letters.filter (·.operation < n) := by
  have happended (text : List Char) :
      (h.letters ++ lettersOf h.operations text).filter (·.operation < n) =
        h.letters.filter (·.operation < n) := by
    rw [List.filter_append, filter_lettersOf hn, List.append_nil]
  cases op with
  | push text => exact happended text
  | newline => exact happended ['\n']
  | fragment f => exact happended f.code.toList
  | insert pattern text =>
    unfold write
    dsimp only
    split
    · rfl
    · rw [List.filter_append, List.filter_append, filter_lettersOf hn, List.append_nil,
        ← List.filter_append, List.take_append_drop]

theorem filter_letters_of (before more : List Operation) :
    (of (before ++ more)).letters.filter (·.operation < before.length) = (of before).letters := by
  induction more using List.reverseRecOn with
  | nil =>
    rw [List.append_nil, List.filter_eq_self]
    intro l hl
    have hknown := (sound_of before).known l hl
    rw [operations_of] at hknown
    exact decide_eq_true hknown
  | append_singleton more op ih =>
    have hn : before.length ≤ (of (before ++ more)).operations := by
      rw [operations_of, List.length_append]
      omega
    rw [← List.append_assoc, of_concat, ← ih]
    exact filter_write hn op

section Fragment

variable (before more : List Operation) (f : Fragment)

/-- The letters of a fragment are appended. -/
theorem filter_letters_of_fragment :
    (of (before ++ .fragment f :: more)).letters.filter (·.operation < before.length + 1) =
      (of before).letters ++ lettersOf before.length f.code.toList := by
  have hfilter := filter_letters_of (before ++ [.fragment f]) more
  rw [List.append_assoc, List.singleton_append, List.length_append, List.length_singleton,
    of_concat] at hfilter
  rw [hfilter, ← operations_of before]
  rfl

/-- The letters of a fragment stand behind all that was there before it. -/
theorem pairwise_letters_of : (of (before ++ .fragment f :: more)).letters.Pairwise fun l m =>
    l.operation = before.length → before.length ≤ m.operation := by
  have hkept : ((of before).letters ++ lettersOf before.length f.code.toList).Pairwise fun l m =>
      l.operation = before.length → before.length ≤ m.operation := by
    rw [List.pairwise_append]
    refine ⟨?_, ?_, ?_⟩
    · apply List.pairwise_of_forall_mem_list
      intro l hl m _ heq
      have hknown := (sound_of before).known l hl
      rw [operations_of] at hknown
      omega
    · apply List.pairwise_of_forall_mem_list
      intro l _ m hm _
      exact (operation_of_mem_lettersOf hm).ge
    · intro l _ m hm _
      exact (operation_of_mem_lettersOf hm).ge
  rw [← filter_letters_of_fragment before more f, List.pairwise_filter] at hkept
  apply hkept.imp
  intro l m hlm heq
  by_contra hlt
  have hm : m.operation < before.length + 1 := by omega
  exact hlt (hlm (decide_eq_true (by omega)) (decide_eq_true hm) heq)

theorem pairwise_letters_of_getElem? {ops : List Operation} {n : Nat} {g : Fragment}
    (h : ops[n]? = some (.fragment g)) :
    (of ops).letters.Pairwise fun l m => l.operation = n → n ≤ m.operation := by
  obtain ⟨hlt, hget⟩ := List.getElem?_eq_some_iff.1 h
  have hops : ops.take n ++ .fragment g :: ops.drop (n + 1) = ops := by
    rw [← hget, ← List.drop_eq_getElem_cons hlt, List.take_append_drop]
  have hpairwise := pairwise_letters_of (ops.take n) (ops.drop (n + 1)) g
  rwa [hops, List.length_take_of_le hlt.le] at hpairwise

variable {before more f} {front back : List Letter} {c : Char} {i : Nat}

/-- The letters of a fragment before one of them are its text up to there. -/
theorem take_of_letters_of
    (h : (of (before ++ .fragment f :: more)).letters = front ++ ⟨c, before.length, i⟩ :: back) :
    (front.filter (·.operation = before.length)).map (·.char) = f.code.toList.take i := by
  have hletters : (of (before ++ .fragment f :: more)).letters.filter (·.operation = before.length) =
      lettersOf before.length f.code.toList := by
    have hfilter := congrArg (List.filter (·.operation = before.length))
      (filter_letters_of_fragment before more f)
    have hold : (of before).letters.filter (·.operation = before.length) = [] := by
      rw [List.filter_eq_nil_iff]
      intro l hl heq
      have hknown := (sound_of before).known l hl
      rw [operations_of] at hknown
      exact absurd (of_decide_eq_true heq) hknown.ne
    have hnew : (lettersOf before.length f.code.toList).filter (·.operation = before.length) =
        lettersOf before.length f.code.toList := by
      rw [List.filter_eq_self]
      intro l hl
      exact decide_eq_true (operation_of_mem_lettersOf hl)
    rw [List.filter_append, hold, hnew, List.nil_append, List.filter_filter] at hfilter
    rw [← hfilter]
    apply List.filter_congr
    intro l _
    by_cases heq : l.operation = before.length <;> simp [heq]
  rw [h, List.filter_append, List.filter_cons_of_pos (by simp)] at hletters
  exact take_of_lettersOf hletters.symm

/-- Between a letter from before a fragment and the letters of one that starts on a line of its own, a
line breaks. -/
theorem mem_break_of_lt (hstart : (of before).draft.atLineStart = true) {l : Letter}
    {between : List Letter}
    (h : (of (before ++ .fragment f :: more)).letters =
      front ++ l :: (between ++ ⟨c, before.length, i⟩ :: back))
    (hl : l.operation < before.length) : '\n' ∈ (l :: between).map (·.char) := by
  have hbehind : (⟨c, before.length, i⟩ :: back).filter (·.operation < before.length) = [] := by
    have hpairwise := pairwise_letters_of before more f
    rw [h, List.pairwise_append, List.pairwise_cons, List.pairwise_append, List.pairwise_cons]
      at hpairwise
    obtain ⟨-, ⟨-, -, ⟨hback, -⟩, -⟩, -⟩ := hpairwise
    rw [List.filter_cons_of_neg (by simp), List.filter_eq_nil_iff]
    intro m hm
    simpa using hback m hm rfl
  have hold : (of before).letters = front.filter (·.operation < before.length) ++
      l :: between.filter (·.operation < before.length) := by
    rw [← filter_letters_of before (.fragment f :: more), h, List.filter_append,
      List.filter_cons_of_pos (by simpa using hl), List.filter_append, hbehind, List.append_nil]
  have hlast : ((l :: between.filter (·.operation < before.length)).map (·.char)).getLast? =
      some '\n' := by
    unfold atLineStart at hstart
    rw [← (sound_of before).code, hold, List.map_append, List.map_cons,
      List.getLast?_append_cons, List.getLast?_cons] at hstart
    rw [List.map_cons, List.getLast?_cons, of_decide_eq_true hstart]
  have hmem := List.mem_of_getLast? hlast
  exact ((List.filter_sublist.cons_cons l).map _).mem hmem

/-! ### Mappings on the line -/

variable {p q : Position}

/-- Letters are told apart, so each stands at one position. -/
theorem PutAt.eq {h : History} (hs : h.Sound) {k : Nat} (hp : h.PutAt k i p) (hq : h.PutAt k i q) :
    p = q := by
  obtain ⟨front, c, back, hletters, rfl⟩ := hp
  obtain ⟨front', c', back', hletters', rfl⟩ := hq
  have hdistinct := hs.distinct
  rw [List.Nodup, List.pairwise_map] at hdistinct
  rcases append_cons_cases (hletters.symm.trans hletters') with
    ⟨rfl, -⟩ | ⟨between, rfl⟩ | ⟨between, rfl⟩
  · rfl
  · rw [hletters', List.append_assoc, List.cons_append] at hdistinct
    exact absurd rfl (rel_of_pairwise hdistinct)
  · rw [hletters, List.append_assoc, List.cons_append] at hdistinct
    exact absurd rfl (rel_of_pairwise hdistinct)

/-- Each character of a fragment has its place. -/
theorem exists_putAt {a r : List Char} (hcode : f.code.toList = a ++ c :: r) :
    ∃ p, (of (before ++ .fragment f :: more)).PutAt before.length a.length p := by
  obtain ⟨back, hback⟩ := exists_lettersOf_append before.length a r c
  have hmem : ⟨c, before.length, a.length⟩ ∈ (of (before ++ .fragment f :: more)).letters := by
    have hfilter := filter_letters_of_fragment before more f
    apply List.mem_of_mem_filter
    rw [hfilter, hcode, hback]
    simp
  obtain ⟨front, back, hletters⟩ := List.append_of_mem hmem
  exact ⟨_, front, c, back, hletters, rfl⟩

/-- Where a mapping of a fragment sits, the draft has it. -/
theorem exists_entry_of_sitsAt {e : MapEntry} (he : e ∈ f.sourced)
    (hq : (of (before ++ .fragment f :: more)).SitsAt before.length f e q) :
    ∃ d ∈ (of (before ++ .fragment f :: more)).draft.entries, d.generated = q := by
  have hs := sound_of (before ++ .fragment f :: more)
  have hbrought : ⟨before.length, f, e⟩ ∈ (of (before ++ .fragment f :: more)).brought :=
    mem_brought_of.2 ⟨by simp, he⟩
  obtain ⟨d, hd, hcarries⟩ := exists_of_mem_forall₂ hs.entries hbrought
  obtain ⟨a, c, r, hcode, hgenerated, hput⟩ := hq
  obtain ⟨front, back, hletters, hplace⟩ := hcarries.place a c r hcode hgenerated
  exact ⟨d, hd, PutAt.eq hs ⟨front, c, back, hletters, hplace⟩ hput⟩

/-- What the draft has on the line of a fragment up to one of its characters is a mapping of this
fragment: those brought before it stand on earlier lines, and those brought after it further on. -/
theorem exists_sitsAt_of_le
    (hplaced : ∀ g, .fragment g ∈ before ++ .fragment f :: more → g.Placed)
    (hstart : (of before).draft.atLineStart = true)
    (hp : (of (before ++ .fragment f :: more)).PutAt before.length i p) {d : MapEntry}
    (hd : d ∈ (of (before ++ .fragment f :: more)).draft.entries)
    (hline : d.generated.line = p.line) (hle : d.generated ≤ p) :
    ∃ e ∈ f.sourced, (of (before ++ .fragment f :: more)).SitsAt before.length f e d.generated := by
  have hs := sound_of (before ++ .fragment f :: more)
  obtain ⟨b, hb, hcarries⟩ := exists_of_mem_forall₂ (List.Forall₂.flip hs.entries) hd
  obtain ⟨hget, hsourced⟩ := mem_brought_of.1 hb
  obtain ⟨a, c, r, hcode, hgenerated⟩ :=
    (hplaced b.fragment (List.mem_of_getElem? hget)).onCharacter hsourced
  obtain ⟨front, back, hletters, hplace⟩ := hcarries.place a c r hcode hgenerated
  obtain ⟨front', c', back', hletters', rfl⟩ := hp
  rw [hplace] at hline hle
  have hcases := append_cons_cases (hletters.symm.trans hletters')
  rcases Nat.lt_trichotomy b.operation before.length with hlt | heq | hgt
  · rcases hcases with ⟨-, hsame⟩ | ⟨between, rfl⟩ | ⟨between, rfl⟩
    · exact absurd (congrArg Letter.operation hsame) hlt.ne
    · -- a line breaks between the two
      rw [List.append_assoc, List.cons_append] at hletters'
      have hbreak := mem_break_of_lt hstart hletters' hlt
      rw [Position.line_after, Position.line_after, List.map_append, breaks_append] at hline
      have hnone : breaks ((⟨c, b.operation, a.length⟩ :: between : List Letter).map (·.char)) = 0 := by
        omega
      exact absurd hbreak (breaks_eq_zero_iff.1 hnone)
    · have hpairwise := pairwise_letters_of before more f
      rw [hletters, List.append_assoc, List.cons_append] at hpairwise
      exact absurd (rel_of_pairwise hpairwise rfl) (Nat.not_le.2 hlt)
  · have hsame : b.fragment = f := by
      rw [heq, List.getElem?_append_right (le_refl _), Nat.sub_self, List.getElem?_cons_zero] at hget
      exact (Operation.fragment.inj (Option.some.inj hget)).symm
    rw [heq] at hletters
    rw [hsame] at hsourced hcode
    exact ⟨b.entry, hsourced, a, c, r, hcode, hgenerated, front, c, back, hletters, hplace⟩
  · rcases hcases with ⟨-, hsame⟩ | ⟨between, rfl⟩ | ⟨between, rfl⟩
    · exact absurd (congrArg Letter.operation hsame) hgt.ne'
    · have hpairwise := pairwise_letters_of_getElem? hget
      rw [hletters', List.append_assoc, List.cons_append] at hpairwise
      exact absurd (rel_of_pairwise hpairwise rfl) (Nat.not_le.2 hgt)
    · rw [List.map_append, Position.after_append, ← Position.not_lt] at hle
      exact absurd (Position.lt_after_cons _ _ _) hle

/-- On one line, a mapping of a fragment that stands up to a character did so in the fragment. -/
theorem le_of_sitsAt {a r : List Char} (hcode : f.code.toList = a ++ c :: r)
    (hp : (of (before ++ .fragment f :: more)).PutAt before.length a.length p) {e : MapEntry}
    (hq : (of (before ++ .fragment f :: more)).SitsAt before.length f e q) (hline : q.line = p.line)
    (hle : q ≤ p) : e.generated.line = (Position.origin.after a).line ∧
      e.generated ≤ Position.origin.after a := by
  obtain ⟨front, c', back, hletters, rfl⟩ := hp
  obtain ⟨a', d, r', hcode', hgenerated, front', c'', back', hletters', rfl⟩ := hq
  have hprefix : front' <+: front := by
    rcases append_cons_cases (hletters.symm.trans hletters') with
      ⟨rfl, -⟩ | ⟨between, rfl⟩ | ⟨between, rfl⟩
    · exact List.prefix_refl _
    · rw [List.map_append, Position.after_append, ← Position.not_lt] at hle
      exact absurd (Position.lt_after_cons _ _ _) hle
    · exact List.prefix_append _ _
  obtain ⟨between, rfl⟩ := hprefix
  have hbreaks : breaks (between.map (·.char)) = 0 := by
    rw [Position.line_after, Position.line_after, List.map_append, breaks_append] at hline
    omega
  have htext := take_of_letters_of hletters
  have htext' := take_of_letters_of hletters'
  rw [hcode, List.take_left, List.filter_append, List.map_append, htext', hcode', List.take_left]
    at htext
  have hsub : '\n' ∉ (between.filter (·.operation = before.length)).map (·.char) := by
    intro hmem
    exact breaks_eq_zero_iff.1 hbreaks ((List.filter_sublist.map _).mem hmem)
  rw [hgenerated, ← htext, Position.after_append, Position.line_after (Position.origin.after a'),
    breaks_eq_zero_iff.2 hsub]
  exact ⟨rfl, Position.le_after _ _⟩

/-- A character of a fragment that starts on a line of its own resolves to nothing just where none of
the fragment's mappings with a source stands on the line of the character up to it. -/
theorem original?_finish_eq_none_iff
    (hplaced : ∀ g, .fragment g ∈ before ++ .fragment f :: more → g.Placed)
    (hstart : (of before).draft.atLineStart = true)
    (hp : (of (before ++ .fragment f :: more)).PutAt before.length i p) (file : Option String) :
    ((of (before ++ .fragment f :: more)).draft.finish file).2.original? p = none ↔
      ∀ e ∈ f.sourced, ∀ q,
        (of (before ++ .fragment f :: more)).SitsAt before.length f e q → q.line = p.line →
          ¬ q ≤ p := by
  have hsourced : ∀ d ∈ stableSort MapEntry.le (of (before ++ .fragment f :: more)).draft.entries,
      d.source.isSome = true := by
    intro d hd
    obtain ⟨b, hb, hcarries⟩ :=
      exists_of_mem_forall₂ (List.Forall₂.flip (sound_of _).entries) (mem_stableSort.1 hd)
    rw [hcarries.source]
    exact (Fragment.mem_sourced.1 (mem_brought_of.1 hb).2).1
  rw [original?_finish, resolve_eq_none_iff (ordered_stableSort _) hsourced]
  constructor
  · intro hfar e he q hq hline
    obtain ⟨d, hd, rfl⟩ := exists_entry_of_sitsAt he hq
    exact hfar d (mem_stableSort.2 hd) hline
  · intro hfar d hd hline hle
    obtain ⟨e, he, hsits⟩ := exists_sitsAt_of_le hplaced hstart hp (mem_stableSort.1 hd) hline hle
    exact hfar e he d.generated hsits hline hle

/-- **What is dropped leaves its text to the mapping before it.**  A character of a fragment that starts
on a line of its own resolves to nothing just where none of the fragment's mappings with a source stands
on its line up to it, in particular where none does so in the fragment.  A composition resolves a place
to nothing just where no mapping is traced on its line up to it. -/
theorem unmapped_iff (hplaced : ∀ g, .fragment g ∈ before ++ .fragment f :: more → g.Placed)
    (hstart : (of before).draft.atLineStart = true) {a r : List Char}
    (hcode : f.code.toList = a ++ c :: r) (file : Option String) :
    (∃ p, (of (before ++ .fragment f :: more)).PutAt before.length a.length p ∧
      (((of (before ++ .fragment f :: more)).draft.finish file).2.original? p = none ↔
        ∀ e ∈ f.sourced, ∀ q,
          (of (before ++ .fragment f :: more)).SitsAt before.length f e q → q.line = p.line →
            ¬ q ≤ p) ∧
      ((∀ e ∈ f.sourced, e.generated.line = (Position.origin.after a).line →
          ¬ e.generated ≤ Position.origin.after a) →
        ((of (before ++ .fragment f :: more)).draft.finish file).2.original? p = none)) ∧
    ∀ (old new : SourceMap) (p : Position), (old.merge new).original? p = none ↔
      ∀ x ∈ new.entries, x.generated.line = p.line → x.generated ≤ p → old.trace x = none := by
  refine ⟨?_, SourceMap.original?_merge_eq_none_iff⟩
  obtain ⟨p, hp⟩ : ∃ p, (of (before ++ .fragment f :: more)).PutAt before.length a.length p :=
    exists_putAt hcode
  have hiff := original?_finish_eq_none_iff hplaced hstart hp file
  refine ⟨p, hp, hiff, ?_⟩
  intro hfar
  rw [hiff]
  intro e he q hq hline hle
  obtain ⟨hline', hle'⟩ := le_of_sitsAt hcode hp hq hline hle
  exact hfar e he hline' hle'

end Fragment

/-- A map with a mapping to a source and, behind it, one to nothing. -/
def unsourcedSample : SourceMap where
  file := none
  sourceRoot := none
  sources := ["a.js"]
  contents := []
  names := []
  mappings := [⟨⟨0, 0⟩, .origin, some 0, none, false⟩, ⟨⟨0, 1⟩, .origin, none, none, false⟩]
  ignored := []
  debugId := none

/-- A fragment whose second character is mapped to nothing. -/
def unsourcedFragment : Fragment := ⟨"ab", some unsourcedSample⟩

theorem unmapped_iff_unsourcedFragment :
    (∀ g, .fragment g ∈ [] ++ Operation.fragment unsourcedFragment :: [] → g.Placed) ∧
      (of []).draft.atLineStart = true ∧ unsourcedFragment.code.toList = ['a'] ++ 'b' :: [] ∧
      (∃ p, (of [.fragment unsourcedFragment]).PutAt 0 1 p ∧
        (((of [.fragment unsourcedFragment]).draft.finish none).2.original? p = none ↔
          ∀ e ∈ unsourcedFragment.sourced, ∀ q,
            (of [.fragment unsourcedFragment]).SitsAt 0 unsourcedFragment e q → q.line = p.line →
              ¬ q ≤ p) ∧
        ((∀ e ∈ unsourcedFragment.sourced, e.generated.line = (Position.origin.after ['a']).line →
            ¬ e.generated ≤ Position.origin.after ['a']) →
          ((of [.fragment unsourcedFragment]).draft.finish none).2.original? p = none)) ∧
      ∀ (old new : SourceMap) (p : Position), (old.merge new).original? p = none ↔
        ∀ x ∈ new.entries, x.generated.line = p.line → x.generated ≤ p → old.trace x = none := by
  have hplaced : ∀ g, .fragment g ∈ [] ++ Operation.fragment unsourcedFragment :: [] → g.Placed := by
    intro g hg
    obtain rfl : g = unsourcedFragment := by simpa using hg
    decide +kernel
  have hcode : unsourcedFragment.code.toList = ['a'] ++ 'b' :: [] := by decide
  exact ⟨hplaced, rfl, hcode, unmapped_iff hplaced rfl hcode none⟩

/-- The character that is mapped to nothing resolves like the one before it, appended and composed. -/
theorem mapped_unsourcedFragment :
    unsourcedFragment.Placed ∧ unsourcedSample.original? ⟨0, 1⟩ = none ∧
      (of [.fragment unsourcedFragment]).PutAt 0 1 ⟨0, 1⟩ ∧
      ((of [.fragment unsourcedFragment]).draft.finish none).2.original? ⟨0, 1⟩ =
        some ⟨"a.js", .origin, none⟩ ∧
      (∃ x ∈ unsourcedSample.entries, x.generated = ⟨0, 1⟩ ∧ unsourcedSample.trace x = none) ∧
      (unsourcedSample.merge unsourcedSample).original? ⟨0, 1⟩ = some ⟨"a.js", .origin, none⟩ := by
  refine ⟨by decide +kernel, by decide +kernel, ?_, by decide +kernel, by decide +kernel,
    by decide +kernel⟩
  exact ⟨[⟨'a', 0, 0⟩], 'b', [], by decide +kernel, by decide +kernel⟩

end History

end Draft

end SingleFile
