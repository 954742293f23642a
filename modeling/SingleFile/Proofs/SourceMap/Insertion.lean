import Mathlib.Tactic.SplitIfs
import SingleFile.Proofs.SourceMap.Finish
import SingleFile.Proofs.SourceMap.Words

/-!
# Answers after an insertion

An insertion moves all mappings from its place on in step (`shift_lt_shift_iff`), so what governs a
character is still the mapping that governed it before.  It goes on to answer as long as the two stand
on one line.  A text with a line break that comes between them severs the character from its mapping,
and then nothing answers for it (`resolve_map_shift`).

`answers_insertBeforeLast?` says so of drafts whose positions fit into words of 32 bits.  Before the
text all answers stay, and behind it they all stay just when the text has no line break, or the first
character behind it is not severed from an answer.
-/

namespace SingleFile

/-! ### Positions that move -/

namespace Position

variable {p q spot : Position}

/-- From an insertion on, lines move by its line breaks, and columns on its line. -/
theorem shift_of_not_lt (h : ¬ p < spot) (size : Position) :
    p.shift spot size =
      ⟨p.line + size.line, if p.line = spot.line then
        (if size.line = 0 then spot.column else 0) + size.column + (p.column - spot.column)
        else p.column⟩ := by
  unfold shift
  rw [if_neg h]
  rw [lt_iff] at h
  split_ifs <;> rw [eq_iff] <;> dsimp only <;> omega

/-- An insertion keeps positions in their order. -/
theorem shift_lt_shift_iff {size : Position} : p.shift spot size < q.shift spot size ↔ p < q := by
  have hkeeps {p q : Position} (h : p < q) : p.shift spot size < q.shift spot size := by
    by_cases hq : q < spot
    · rw [shift_of_lt hq, shift_of_lt (lt_trans h hq)]
      exact h
    · rw [shift_of_not_lt hq]
      by_cases hp : p < spot
      · rw [shift_of_lt hp]
        rw [lt_iff] at *
        dsimp only
        split_ifs <;> omega
      · rw [shift_of_not_lt hp]
        rw [lt_iff] at *
        dsimp only
        split_ifs <;> omega
  constructor
  · intro h
    rw [← not_le]
    intro hle
    by_cases heq : q = p
    · rw [heq] at h
      exact lt_irrefl _ h
    · exact lt_irrefl _ (lt_trans h (hkeeps (lt_of_le_of_ne hle heq)))
  · exact hkeeps

theorem shift_le_shift_iff {size : Position} : p.shift spot size ≤ q.shift spot size ↔ p ≤ q := by
  rw [← not_lt, shift_lt_shift_iff, not_lt]

/-- What stands on one line stays on one line, unless an insertion breaks the line between. -/
theorem line_shift_eq_iff {size : Position} (h : p ≤ q) :
    (p.shift spot size).line = (q.shift spot size).line ↔
      p.line = q.line ∧ ¬ (p < spot ∧ spot ≤ q ∧ 0 < size.line) := by
  by_cases hq : q < spot
  · have hp : p < spot := lt_of_le_of_lt h hq
    have hnot : ¬ spot ≤ q := not_le.2 hq
    rw [shift_of_lt hp, shift_of_lt hq]
    simp [hnot]
  · have hle : spot ≤ q := not_lt.1 hq
    rw [shift_of_not_lt hq]
    by_cases hp : p < spot
    · rw [shift_of_lt hp, and_iff_right hp, and_iff_right hle]
      rw [le_iff] at h hle
      rw [lt_iff] at hp
      dsimp only
      omega
    · rw [shift_of_not_lt hp]
      simp [hp]

end Position

/-! ### Answers that are kept -/

def MapEntry.shift (spot size : Position) (e : MapEntry) : MapEntry :=
  { e with generated := e.generated.shift spot size }

/-- An insertion at `spot` severs a position behind it from what governs it: it breaks the line, and
what governs the position stands before it. -/
def Severed (es : List MapEntry) (spot size p : Position) : Prop :=
  0 < size.line ∧ spot ≤ p ∧ ∃ e, governing es p = some e ∧ e.generated < spot

/-- A position resolves as before, or to nothing where it is severed. -/
theorem resolve_map_shift (es : List MapEntry) (spot size p : Position) :
    (Severed es spot size p → resolve (es.map (MapEntry.shift spot size)) (p.shift spot size) = none) ∧
      (¬ Severed es spot size p →
        resolve (es.map (MapEntry.shift spot size)) (p.shift spot size) = resolve es p) := by
  have hgoverning : governing (es.map (MapEntry.shift spot size)) (p.shift spot size) =
      (governing es p).map (MapEntry.shift spot size) :=
    governing_map (fun _ => rfl) (fun _ _ => Position.shift_lt_shift_iff) es p
  rw [resolve_eq_bind, resolve_eq_bind, hgoverning]
  cases he : governing es p with
  | none => exact ⟨fun _ => rfl, fun _ => rfl⟩
  | some e =>
    have hline : (e.generated.shift spot size).line = (p.shift spot size).line ↔
        e.generated.line = p.line ∧ ¬ (e.generated < spot ∧ spot ≤ p ∧ 0 < size.line) :=
      Position.line_shift_eq_iff (mem_of_governing he).2
    have hsevered : Severed es spot size p ↔ e.generated < spot ∧ spot ≤ p ∧ 0 < size.line := by
      constructor
      · rintro ⟨hsize, hle, d, hd, hlt⟩
        obtain rfl := Option.some.inj (he.symm.trans hd)
        exact ⟨hlt, hle, hsize⟩
      · rintro ⟨hlt, hle, hsize⟩
        exact ⟨hsize, hle, e, he, hlt⟩
    rw [← hsevered] at hline
    rw [Option.map_some, Option.bind_some, Option.bind_some]
    show (Severed es spot size p →
        (if (e.generated.shift spot size).line = _ then e.origin? else none) = none) ∧
      (¬ Severed es spot size p →
        (if (e.generated.shift spot size).line = _ then e.origin? else none) = _)
    constructor
    · intro h
      rw [if_neg fun heq => (hline.1 heq).2 h]
    · intro h
      exact if_congr (hline.trans (and_iff_left h)) rfl rfl

/-- Where the place of an insertion is not severed from an answer, no place behind it on the line is. -/
theorem resolve_eq_none_of_severed {es : List MapEntry} (hes : Ordered es) {spot size p : Position}
    (h : Severed es spot size p)
    (hspot : resolve es spot = none ∨ ∃ e ∈ es, e.generated = spot) : resolve es p = none := by
  obtain ⟨-, hle, e, he, hlt⟩ := h
  rcases hspot with hnone | ⟨d, hd, hdspot⟩
  · -- the same mapping governs both, from the line of the insertion or from one above it
    have hgoverns := governing_of_lt hes he hlt hle
    rw [resolve_eq_bind, hgoverns, Option.bind_some] at hnone
    rw [resolve_eq_bind, he, Option.bind_some]
    by_cases hline : e.generated.line = p.line
    · have hspotline : e.generated.line = spot.line := by
        rw [Position.lt_iff] at hlt
        rw [Position.le_iff] at hle
        omega
      rw [if_pos hspotline] at hnone
      rw [if_pos hline, hnone]
    · rw [if_neg hline]
  · have hbehind := le_of_governing hes he hd (hdspot ▸ hle)
    rw [hdspot, ← Position.not_lt] at hbehind
    exact absurd hlt hbehind

namespace Draft

variable {d d' : Draft} {pattern text front back : List Char} {file : Option String}

/-- What the finished map of a draft says of the place where a text ends. -/
def answer? (file : Option String) (d : Draft) (cs : List Char) : Option Origin :=
  (d.finish file).2.original? (Position.origin.after cs)

/-- An insertion between `front` and `rest` keeps what the finished map says of each character. -/
structure KeepsAnswers (file : Option String) (d d' : Draft) (front text rest : List Char) : Prop where
  before : ∀ a c b, front = a ++ c :: b → d'.answer? file a = d.answer? file a
  behind : ∀ a c b, rest = a ++ c :: b →
    d'.answer? file (front ++ text ++ a) = d.answer? file (front ++ a)

/-- A text behind `front` severs what follows it up to `a` from the mapping that governs it: the text
has a line break, and the mapping stands before it. -/
def Severs (d : Draft) (front text a : List Char) : Prop :=
  '\n' ∈ text ∧ ∃ e, governing (stableSort MapEntry.le d.entries) (Position.origin.after (front ++ a)) =
    some e ∧ e.generated < Position.origin.after front

theorem severs_iff {a : List Char} : d.Severs front text a ↔
    Severed (stableSort MapEntry.le d.entries) (Position.origin.after front)
      (Position.origin.after text) (Position.origin.after (front ++ a)) := by
  have hbreak : '\n' ∈ text ↔ 0 < (Position.origin.after text).line := by
    rw [Position.line_after, Position.line_origin, Nat.zero_add, Nat.pos_iff_ne_zero,
      Ne, breaks_eq_zero_iff, not_not]
  have hle : Position.origin.after front ≤ Position.origin.after (front ++ a) := by
    rw [Position.after_append]
    exact Position.le_after _ a
  unfold Severs Severed
  rw [hbreak, and_iff_right hle]

/-- What an insertion makes of code and mappings. -/
theorem insertBeforeLast?_cases (h : d.insertBeforeLast? pattern text = some d') :
    ∃ front back, splitLast? pattern d.code = some (front, back) ∧
      d'.code = front ++ text ++ (pattern ++ back) ∧
      stableSort MapEntry.le d'.entries = (stableSort MapEntry.le d.entries).map
        (MapEntry.shift (Position.origin.after front) (Position.origin.after text)) := by
  obtain ⟨front, back, hsplit, -, rfl⟩ := insertBeforeLast?_eq_some h
  refine ⟨front, back, hsplit, rfl, (map_stableSort (fun a b => ?_) d.entries).symm⟩
  exact decide_eq_decide.2 Position.shift_le_shift_iff

section Inserted

variable (hentries : stableSort MapEntry.le d'.entries = (stableSort MapEntry.le d.entries).map
  (MapEntry.shift (Position.origin.after front) (Position.origin.after text)))

include hentries

theorem answer?_of_before {a b : List Char} {c : Char} (hfront : front = a ++ c :: b) :
    d'.answer? file a = d.answer? file a := by
  have hlt : Position.origin.after a < Position.origin.after front := by
    rw [hfront, Position.after_append]
    exact Position.lt_after_cons _ c b
  have hnot : ¬ Severed (stableSort MapEntry.le d.entries) (Position.origin.after front)
      (Position.origin.after text) (Position.origin.after a) := by
    intro hsevered
    exact Position.not_lt.2 hsevered.2.1 hlt
  have hshift := (resolve_map_shift _ _ _ _).2 hnot
  rw [Position.shift_of_lt hlt] at hshift
  unfold answer?
  rw [original?_finish, original?_finish, hentries, hshift]

theorem answer?_of_behind (a : List Char) :
    (d.Severs front text a → d'.answer? file (front ++ text ++ a) = none) ∧
      (¬ d.Severs front text a →
        d'.answer? file (front ++ text ++ a) = d.answer? file (front ++ a)) := by
  have hshift := resolve_map_shift (stableSort MapEntry.le d.entries) (Position.origin.after front)
    (Position.origin.after text) (Position.origin.after (front ++ a))
  rw [Position.shift_after_append, ← severs_iff] at hshift
  unfold answer?
  rwa [original?_finish, original?_finish, hentries]

/-- The first character behind a text with a line break loses its answer, unless it has a mapping of its
own. -/
theorem KeepsAnswers.spot {rest : List Char} (h : KeepsAnswers file d d' front text rest)
    (hbreak : '\n' ∈ text) (hrest : rest ≠ []) :
    d.answer? file front = none ∨ ∃ e ∈ d.entries, e.generated = Position.origin.after front := by
  cases hanswer : d.answer? file front with
  | none => exact .inl rfl
  | some o =>
    obtain ⟨c, b, rfl⟩ := List.exists_cons_of_ne_nil hrest
    have hkept := h.behind [] c b rfl
    have hgoverned := hanswer
    unfold answer? at hgoverned
    rw [original?_finish, resolve_eq_bind] at hgoverned
    obtain ⟨e, he, -⟩ := Option.bind_eq_some_iff.1 hgoverned
    obtain ⟨hmem, hle⟩ := mem_of_governing he
    by_cases heq : e.generated = Position.origin.after front
    · exact .inr ⟨e, mem_stableSort.1 hmem, heq⟩
    · have hsevers : d.Severs front text [] := by
        refine ⟨hbreak, e, ?_, Position.lt_of_le_of_ne hle heq⟩
        rw [List.append_nil]
        exact he
      rw [(answer?_of_behind hentries []).1 hsevers, List.append_nil, hanswer] at hkept
      cases hkept

/-- Where the first character behind a text is not severed from an answer, all characters keep theirs. -/
theorem keepsAnswers_of_spot {rest : List Char}
    (h : '\n' ∉ text ∨ rest = [] ∨ d.answer? file front = none ∨
      ∃ e ∈ d.entries, e.generated = Position.origin.after front) :
    KeepsAnswers file d d' front text rest := by
  refine ⟨fun a c b hfront => answer?_of_before hentries hfront, ?_⟩
  intro a c b hrest
  by_cases hsevers : d.Severs front text a
  · have hspot : resolve (stableSort MapEntry.le d.entries) (Position.origin.after front) = none ∨
        ∃ e ∈ stableSort MapEntry.le d.entries, e.generated = Position.origin.after front := by
      rcases h with hbreak | hnil | hnone | ⟨e, he, heq⟩
      · exact absurd hsevers.1 hbreak
      · rw [hnil] at hrest
        simp at hrest
      · left
        rwa [answer?, original?_finish] at hnone
      · exact .inr ⟨e, mem_stableSort.2 he, heq⟩
    have hnone := resolve_eq_none_of_severed (ordered_stableSort _) (severs_iff.1 hsevers) hspot
    rw [(answer?_of_behind hentries a).1 hsevers, answer?, original?_finish, hnone]
  · exact (answer?_of_behind hentries a).2 hsevers

end Inserted

/-- **An insertion keeps the answers for all characters that it does not sever.**  Where lines and
columns fit into words, it is the insertion in words.  What stands before the text resolves as before.
What stands behind it resolves to nothing where the text severs it, and as before otherwise.  So all
characters keep their answers just when the text has no line break, nothing stands behind it, or the
first character behind it resolves to nothing or has a mapping of its own. -/
theorem answers_insertBeforeLast? (h : d.insertBeforeLast? pattern text = some d')
    (hfits : d.FitsWords ∧ d'.FitsWords) (file : Option String) :
    d.insertInWords? pattern text = some d' ∧
      ∃ front back, splitLast? pattern d.code = some (front, back) ∧
      d'.code = front ++ text ++ (pattern ++ back) ∧
      (∀ a c b, front = a ++ c :: b → d'.answer? file a = d.answer? file a) ∧
      (∀ a c b, pattern ++ back = a ++ c :: b →
        (d.Severs front text a → d'.answer? file (front ++ text ++ a) = none) ∧
        (¬ d.Severs front text a →
          d'.answer? file (front ++ text ++ a) = d.answer? file (front ++ a))) ∧
      (KeepsAnswers file d d' front text (pattern ++ back) ↔
        '\n' ∉ text ∨ pattern ++ back = [] ∨ d.answer? file front = none ∨
          ∃ e ∈ d.entries, e.generated = Position.origin.after front) := by
  obtain ⟨front, back, hsplit, hcode, hentries⟩ := insertBeforeLast?_cases h
  refine ⟨insertInWords?_eq_some h hfits.2, front, back, hsplit, hcode,
    fun a c b hfront => answer?_of_before hentries hfront,
    fun a c b _ => answer?_of_behind hentries a, ?_, keepsAnswers_of_spot hentries⟩
  intro hkeeps
  by_cases hbreak : '\n' ∈ text
  · by_cases hrest : pattern ++ back = []
    · exact .inr (.inl hrest)
    · exact .inr (.inr (hkeeps.spot hentries hbreak hrest))
  · exact .inl hbreak

/-! ### A line that is broken -/

/-- A draft with one mapping, at the start of the line of its code. -/
def helperSample : Draft :=
  Draft.pushFragment {} "  var _c = f".toList (some {
    file := none
    sourceRoot := none
    sources := ["a.vue"]
    contents := []
    names := []
    mappings := [⟨⟨0, 0⟩, ⟨3, 0⟩, some 0, none, false⟩]
    ignored := []
    debugId := none })

theorem answers_insertBeforeLast?_helperSample :
    ∃ d', helperSample.insertBeforeLast? "var _c".toList "/**/\n".toList = some d' ∧
      (helperSample.FitsWords ∧ d'.FitsWords) ∧
      helperSample.insertInWords? "var _c".toList "/**/\n".toList = some d' ∧
      ∃ front back, splitLast? "var _c".toList helperSample.code = some (front, back) ∧
        d'.code = front ++ "/**/\n".toList ++ ("var _c".toList ++ back) ∧
        (∀ a c b, front = a ++ c :: b → d'.answer? none a = helperSample.answer? none a) ∧
        (∀ a c b, "var _c".toList ++ back = a ++ c :: b →
          (helperSample.Severs front "/**/\n".toList a →
            d'.answer? none (front ++ "/**/\n".toList ++ a) = none) ∧
          (¬ helperSample.Severs front "/**/\n".toList a →
            d'.answer? none (front ++ "/**/\n".toList ++ a) =
              helperSample.answer? none (front ++ a))) ∧
        (KeepsAnswers none helperSample d' front "/**/\n".toList ("var _c".toList ++ back) ↔
          '\n' ∉ "/**/\n".toList ∨ "var _c".toList ++ back = [] ∨
            helperSample.answer? none front = none ∨
            ∃ e ∈ helperSample.entries, e.generated = Position.origin.after front) :=
  have hfits : helperSample.FitsWords ∧ ∀ d' ∈ helperSample.insertBeforeLast? "var _c".toList
      "/**/\n".toList, d'.FitsWords := by
    decide +kernel
  ⟨_, rfl, ⟨hfits.1, hfits.2 _ rfl⟩, answers_insertBeforeLast? rfl ⟨hfits.1, hfits.2 _ rfl⟩ none⟩

/-- The comment breaks the line behind its only mapping, so the code on the new line resolves to
nothing. -/
theorem not_keepsAnswers_helperSample :
    ∃ d' front back, helperSample.insertBeforeLast? "var _c".toList "/**/\n".toList = some d' ∧
      splitLast? "var _c".toList helperSample.code = some (front, back) ∧
      ¬ KeepsAnswers none helperSample d' front "/**/\n".toList ("var _c".toList ++ back) := by
  refine ⟨_, _, _, rfl, rfl, ?_⟩
  intro hkeeps
  have hfirst := hkeeps.behind [] 'v' _ rfl
  revert hfirst
  decide +kernel

end Draft

end SingleFile
