import SingleFile.Proofs.Assembly.Layout

/-!
# The script at the front of a module

A module starts with its script and the line below it, into which the coverage comment may have been
put at one spot (`annotate`).  `Draft.StartsWith` says so of a draft, and `Draft.Follows` that the
mappings of the script have gone along.  Both hold of every module with a script
(`Assembly.exists_spot`).
-/

namespace SingleFile

open Assembly

/-- A text with the coverage comment behind some number of its characters, if it has that many. -/
def annotate (spot : Option Nat) (cs : List Char) : List Char :=
  match spot with
  | none => cs
  | some n => if n ≤ cs.length then cs.take n ++ coverageComment ++ cs.drop n else cs

/-- The comment stands before or behind a character. -/
theorem annotate_append_cons (spot : Option Nat) (x : List Char) (c : Char) (y : List Char) :
    annotate spot x ++ [c] <+: annotate spot (x ++ c :: y) := by
  cases spot with
  | none => exact ⟨y, by simp [annotate]⟩
  | some n =>
    unfold annotate
    by_cases hn : n ≤ x.length
    · have hall : n ≤ (x ++ c :: y).length := by
        rw [List.length_append]
        omega
      simp only [hn, hall, if_true]
      rw [List.take_append_of_le_length hn, List.drop_append_of_le_length hn]
      exact ⟨y, by simp⟩
    · simp only [hn, if_false]
      obtain ⟨k, hk⟩ : ∃ k, n = x.length + (k + 1) := ⟨n - x.length - 1, by omega⟩
      split
      · refine ⟨y.take k ++ coverageComment ++ y.drop k, ?_⟩
        rw [hk, List.take_length_add_append, List.drop_length_add_append, List.take_succ_cons,
          List.drop_succ_cons]
        simp
      · exact ⟨y, by simp⟩

theorem prefix_append_iff_of_length_le {x p : List Char} (h : x.length ≤ p.length) (q : List Char) :
    x <+: p ++ q ↔ x <+: p := by
  constructor
  · intro hx
    exact List.prefix_of_prefix_length_le hx (List.prefix_append p q) h
  · intro hx
    exact hx.trans (List.prefix_append p q)

/-- The comment keeps what a text starts with. -/
theorem annotate_prefix_iff {spot : Option Nat} {x y : List Char} :
    annotate spot x <+: annotate spot y ↔ x <+: y := by
  cases spot with
  | none => rfl
  | some n =>
    unfold annotate
    by_cases hx : n ≤ x.length
    · by_cases hy : n ≤ y.length
      · have hlength : (x.take n).length = (y.take n).length := by
          rw [List.length_take_of_le hx, List.length_take_of_le hy]
        have hwhole : x <+: y ↔ x.take n = y.take n ∧ x.drop n <+: y.drop n := by
          rw [← List.prefix_append_inj_of_length_eq hlength, List.take_append_drop,
            List.take_append_drop]
        simp only [hx, hy, if_true]
        rw [hwhole, List.append_assoc, List.append_assoc,
          List.prefix_append_inj_of_length_eq hlength, List.prefix_append_right_inj]
      · -- a text with the comment does not fit into one that is too short for it
        simp only [hx, hy, if_true, if_false]
        constructor <;> intro h <;> have hle := h.length_le
        · simp only [List.length_append, List.length_take, List.length_drop] at hle
          omega
        · omega
    · simp only [hx, if_false]
      split
      · next hy =>
        have hle : x.length ≤ (y.take n).length := by
          rw [List.length_take_of_le hy]
          omega
        have hwhole := prefix_append_iff_of_length_le hle (y.drop n)
        rw [List.take_append_drop] at hwhole
        rw [hwhole, List.append_assoc, prefix_append_iff_of_length_le hle]
      · rfl

theorem annotate_append {spot : Option Nat} {x : List Char} (h : ∀ n ∈ spot, n ≤ x.length)
    (y : List Char) : annotate spot (x ++ y) = annotate spot x ++ y := by
  cases spot with
  | none => rfl
  | some n =>
    have hn := h n rfl
    have hall : n ≤ (x ++ y).length := by
      rw [List.length_append]
      omega
    simp only [annotate, hn, hall, if_true]
    rw [List.take_append_of_le_length hn, List.drop_append_of_le_length hn]
    simp

/-- A position moves with the character that stands there. -/
theorem shift_annotate {front rest x y : List Char} {c : Char} (h : front ++ rest = x ++ c :: y) :
    (Position.origin.after x).shift (Position.origin.after front)
        (Position.origin.after coverageComment) =
      Position.origin.after (annotate (some front.length) x) := by
  rcases List.append_eq_append_iff.1 h with ⟨m, rfl, rfl⟩ | ⟨m, rfl, hm⟩
  · rw [Position.shift_after_append, annotate]
    simp
  · cases m with
    | nil =>
      have hshift := Position.shift_after_append x coverageComment []
      rw [List.append_nil, List.append_nil] at hshift
      rw [List.append_nil, hshift, annotate]
      simp
    | cons d m =>
      rw [Position.shift_of_lt, annotate, if_neg (by simp)]
      rw [Position.after_append]
      exact Position.lt_after_cons _ d m

namespace Draft

/-- A draft starts with some code, into which the coverage comment may have been put. -/
def StartsWith (d : Draft) (spot : Option Nat) (code : List Char) : Prop :=
  ∃ tail, (∀ n ∈ spot, n ≤ (code ++ tail).length) ∧ d.code = annotate spot (code ++ tail)

/-- The mappings of a draft are those of the fragment that it starts with. -/
def Follows (d : Draft) (spot : Option Nat) (f : Fragment) : Prop :=
  ∀ e, e ∈ d.entries ↔ ∃ x c y, f.code.toList = x ++ c :: y ∧
    ∃ e' ∈ f.entriesAfter [], e'.generated = Position.origin.after x ∧
      e = { e' with generated := Position.origin.after (annotate spot x) }

variable {d : Draft} {spot : Option Nat} {code : List Char} {f : Fragment}

theorem startsWith_of_prefix {front : List Char} (h : d.StartsWith spot code)
    (hfront : front <+: code) : d.StartsWith spot front := by
  obtain ⟨tail, hspot, hcode⟩ := h
  obtain ⟨more, rfl⟩ := hfront
  rw [List.append_assoc] at hspot hcode
  exact ⟨more ++ tail, hspot, hcode⟩

theorem startsWith_push (h : d.StartsWith spot code) (text : List Char) :
    (d.push text).StartsWith spot code := by
  obtain ⟨tail, hspot, hcode⟩ := h
  refine ⟨tail ++ text, fun n hn => ?_, ?_⟩
  · rw [← List.append_assoc, List.length_append]
    exact Nat.le_add_right_of_le (hspot n hn)
  · rw [code_push, hcode, ← List.append_assoc, annotate_append hspot]

theorem startsWith_startLine (h : d.StartsWith spot code) : (startLine d).StartsWith spot code :=
  startLine_of_push (P := fun d => d.StartsWith spot code) (fun _ text h => startsWith_push h text) h

theorem startsWith_pushLine (h : d.StartsWith spot code) (text : String) :
    (pushLine d text).StartsWith spot code := startsWith_push (startsWith_startLine h) _

theorem follows_startLine (h : d.Follows spot f) : (startLine d).Follows spot f :=
  startLine_of_push (P := fun d => d.Follows spot f) (fun _ _ h => h) h

theorem follows_pushLine (h : d.Follows spot f) (text : String) :
    (pushLine d text).Follows spot f := follows_startLine h

theorem startsWith_pushFragment (h : d.StartsWith spot code) (g : Fragment) :
    (Assembly.pushFragment d g).StartsWith spot code := by
  have hpush := startsWith_push (startsWith_startLine h) g.code.toList
  obtain ⟨tail, hspot, hcode⟩ := hpush
  exact ⟨tail, hspot, by rw [Assembly.pushFragment, code_pushFragment, ← hcode, code_push]⟩

theorem follows_pushFragment (h : d.Follows spot f) {g : Fragment} (hg : g.map = none) :
    (Assembly.pushFragment d g).Follows spot f := by
  rw [Assembly.pushFragment, hg]
  exact follows_startLine h

/-- A draft that something is put into starts with the same code, and its mappings go along. -/
theorem startsWith_insert {d' : Draft} {pattern : List Char} (h : d.StartsWith none code)
    (hinsert : d.insertBeforeLast? pattern coverageComment = some d') :
    ∃ n, d'.StartsWith (some n) code ∧
      ∀ f : Fragment, f.code.toList <+: code → d.Follows none f → d'.Follows (some n) f := by
  obtain ⟨tail, -, hcode⟩ := h
  obtain ⟨front, rest, -, hcut, rfl⟩ := insertBeforeLast?_eq_some hinsert
  have hall : code ++ tail = front ++ (pattern ++ rest) := hcode.symm.trans hcut
  refine ⟨front.length, ⟨tail, ?_, ?_⟩, ?_⟩
  · rintro n ⟨⟩
    rw [hall, List.length_append]
    exact Nat.le_add_right _ _
  · rw [hall, annotate]
    simp
  · rintro f ⟨more, rfl⟩ hfollows e
    have hmoved {x y : List Char} {c : Char} (hx : f.code.toList = x ++ c :: y) :
        (Position.origin.after (annotate none x)).shift (Position.origin.after front)
            (Position.origin.after coverageComment) =
          Position.origin.after (annotate (some front.length) x) := by
      have hsplit : front ++ (pattern ++ rest) = x ++ c :: (y ++ (more ++ tail)) := by
        rw [← hall, hx]
        simp
      exact shift_annotate hsplit
    rw [List.mem_map]
    constructor
    · rintro ⟨e₁, he₁, rfl⟩
      obtain ⟨x, c, y, hx, e', he', hgenerated, rfl⟩ := (hfollows e₁).1 he₁
      exact ⟨x, c, y, hx, e', he', hgenerated, by rw [hmoved hx]⟩
    · rintro ⟨x, c, y, hx, e', he', hgenerated, rfl⟩
      refine ⟨_, (hfollows _).2 ⟨x, c, y, hx, e', he', hgenerated, rfl⟩, ?_⟩
      exact congrArg (fun p => { e' with generated := p }) (hmoved hx)

end Draft

namespace Assembly

variable {a : Assembly} {f : Fragment}

theorem code_body (hscript : a.script = some f) : a.body.code = f.code.toList := by
  unfold body
  rw [hscript]
  show (Draft.pushFragment (startLine {}) f.code.toList f.map).code = _
  rw [Draft.code_pushFragment]
  rfl

/-- The alias stands on a line of its own below the script. -/
theorem exists_code_pushLine_alias (hscript : a.script = some f) : ∃ c more, c ≠ '/' ∧
    (pushLine a.body a.aliasLine).code = f.code.toList ++ c :: more := by
  obtain ⟨c, line, hc, hline⟩ : ∃ c line, c ≠ '/' ∧ a.aliasLine.toList = c :: line := by
    unfold aliasLine optionsAlias
    split
    · split
      · exact ⟨'c', _, by decide, by simp; rfl⟩
      · exact ⟨'c', _, by decide, rfl⟩
    · exact ⟨'v', _, by decide, rfl⟩
  have hcode : (pushLine a.body a.aliasLine).code =
      (startLine a.body).code ++ a.aliasLine.toList := rfl
  rw [hcode, hline, ← code_body hscript]
  unfold startLine
  split
  · exact ⟨c, line, hc, rfl⟩
  · refine ⟨'\n', c :: line, by decide, ?_⟩
    show (a.body.code ++ ['\n']) ++ c :: line = _
    rw [List.append_assoc]
    rfl

theorem prefix_code_pushLine_alias (hscript : a.script = some f) :
    f.code.toList <+: (pushLine a.body a.aliasLine).code := by
  obtain ⟨c, more, -, hmore⟩ := exists_code_pushLine_alias hscript
  exact ⟨c :: more, hmore.symm⟩

theorem follows_body (hscript : a.script = some f)
    (hf : ∀ e ∈ f.entriesAfter [], OnCharacter f.code.toList e.generated) : a.body.Follows none f := by
  have hentries : a.body.entries = f.entriesAfter [] := by
    unfold body
    rw [hscript]
    show (Draft.pushFragment (startLine {}) f.code.toList f.map).entries = _
    unfold Draft.pushFragment Fragment.entriesAfter
    cases f.map <;> rfl
  intro e
  rw [hentries]
  constructor
  · intro he
    obtain ⟨x, c, y, hcode, hx⟩ := hf e he
    exact ⟨x, c, y, hcode, e, he, hx, by rw [annotate, ← hx]⟩
  · rintro ⟨x, c, y, -, e', he', hx, rfl⟩
    rw [annotate, ← hx]
    exact he'

/-- **The front of a module** is its script with the alias below it, and where the template has no map
its mappings are those of the script. -/
theorem exists_spot (hscript : a.script = some f) : ∃ spot,
    a.draft.StartsWith spot (pushLine a.body a.aliasLine).code ∧
    ((∀ g ∈ a.template, g.map = none) →
      (∀ e ∈ f.entriesAfter [], OnCharacter f.code.toList e.generated) → a.draft.Follows spot f) := by
  have hcode : (pushLine a.body a.aliasLine).StartsWith none (pushLine a.body a.aliasLine).code :=
    ⟨[], by simp, by rw [annotate, List.append_nil]⟩
  have hbody := prefix_code_pushLine_alias hscript
  obtain ⟨spot, hstarts, hfollows⟩ : ∃ spot,
      a.templateDraft.StartsWith spot (pushLine a.body a.aliasLine).code ∧
      ((∀ g ∈ a.template, g.map = none) →
        (∀ e ∈ f.entriesAfter [], OnCharacter f.code.toList e.generated) →
          a.templateDraft.Follows spot f) := by
    unfold templateDraft
    cases a.template with
    | none => exact ⟨none, hcode, fun _ hf => Draft.follows_pushLine (follows_body hscript hf) _⟩
    | some g =>
      have hpushed := Draft.startsWith_pushFragment hcode g
      have hmoved (hmap : ∀ g' ∈ some g, g'.map = none)
          (hf : ∀ e ∈ f.entriesAfter [], OnCharacter f.code.toList e.generated) :=
        Draft.follows_pushFragment (Draft.follows_pushLine (follows_body hscript hf) a.aliasLine)
          (hmap g rfl)
      simp only [pushTemplate]
      cases hinsert : (pushFragment (pushLine a.body a.aliasLine) g).insertBeforeLast? renderHelper
          coverageComment with
      | none => exact ⟨none, Draft.startsWith_push hpushed _, fun hmap hf => hmoved hmap hf⟩
      | some d =>
        obtain ⟨n, hstarts, hfollows⟩ := Draft.startsWith_insert hpushed hinsert
        exact ⟨some n, Draft.startsWith_push hstarts _,
          fun hmap hf => hfollows f hbody (hmoved hmap hf)⟩
  refine ⟨spot, ?_, fun hmap hf => ?_⟩
  · exact draft_of_lines (P := fun d => d.StartsWith spot _) a hstarts
      fun _ text h => Draft.startsWith_pushLine h text
  · exact draft_of_lines (P := fun d => d.Follows spot f) a (hfollows hmap hf)
      fun _ text h => Draft.follows_pushLine h text

end Assembly

end SingleFile
