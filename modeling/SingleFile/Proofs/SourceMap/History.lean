import Mathlib.Data.List.Nodup
import SingleFile.Proofs.SourceMap.Finish
import SingleFile.Proofs.SourceMap.Sources

/-!
# The history of a draft

`History.perform` does one operation on a draft and keeps account of what the draft is made of: which
operation wrote each character (`Letter`), which mappings the fragments brought (`Brought`), and the
fragments themselves.  Every operation keeps the draft true to this account (`History.Sound.perform`),
so after any number of them each mapping still sits on the character that it sat on in its fragment.
`exact_finish` says the same of the finished map, with its order, its sources and their contents.
-/

namespace SingleFile

/-- The content that a map embeds for a source: the one of the first entry for it that has any. -/
def SourceMap.firstContent (map : SourceMap) (source : String) : Option String :=
  map.sourceNames.zipIdx.findSome? fun (name, i) => if name = source then map.contentAt i else none

namespace Fragment

/-- The mappings of a fragment that have a source. -/
def sourced (f : Fragment) : List MapEntry :=
  match f.map with
  | none => []
  | some map => map.entries.filter (·.source.isSome)

def firstContent (f : Fragment) (source : String) : Option String :=
  f.map.bind (·.firstContent source)

end Fragment

namespace Draft

/-- What can be done to a draft. -/
inductive Operation where
  | push (text : List Char)
  | newline
  | fragment (f : Fragment)
  | insert (pattern text : List Char)

/-- The draft after an operation.  It stays as it is where the pattern of an insertion does not occur. -/
def perform (d : Draft) : Operation → Draft
  | .push text => d.push text
  | .newline => d.newline
  | .fragment f => d.pushFragment f.code.toList f.map
  | .insert pattern text => (d.insertBeforeLast? pattern text).getD d

/-- A character of a draft, with the number of the operation that wrote it and its index in the text
of that operation. -/
structure Letter where
  char : Char
  operation : Nat
  index : Nat
deriving DecidableEq, Repr

/-- The characters of a text that an operation writes. -/
def lettersOf (operation : Nat) (text : List Char) : List Letter :=
  text.zipIdx.map fun (c, i) => ⟨c, operation, i⟩

/-- A mapping of a fragment, with the number of the operation that appended the fragment. -/
structure Brought where
  operation : Nat
  fragment : Fragment
  entry : MapEntry

/-- A draft and what it is made of.  `operations` counts what has been done. -/
structure History where
  draft : Draft := {}
  operations : Nat := 0
  letters : List Letter := []
  brought : List Brought := []
  fragments : List Fragment := []

namespace History

/-- The letters after an operation.  Inserted ones stand before the last occurrence of the pattern. -/
def write (h : History) : Operation → List Letter
  | .push text => h.letters ++ lettersOf h.operations text
  | .newline => h.letters ++ lettersOf h.operations ['\n']
  | .fragment f => h.letters ++ lettersOf h.operations f.code.toList
  | .insert pattern text =>
    match splitLast? pattern (h.letters.map (·.char)) with
    | none => h.letters
    | some (front, _) =>
      h.letters.take front.length ++ lettersOf h.operations text ++ h.letters.drop front.length

def appended : Operation → List Fragment
  | .fragment f => [f]
  | _ => []

/-- The account of one more operation. -/
def perform (h : History) (op : Operation) : History where
  draft := h.draft.perform op
  operations := h.operations + 1
  letters := h.write op
  brought := h.brought ++ (appended op).flatMap fun f => f.sourced.map (⟨h.operations, f, ·⟩)
  fragments := h.fragments ++ appended op

/-- The account of operations on an empty draft. -/
def of (ops : List Operation) : History := ops.foldl perform {}

/-- A mapping of a draft is one that a fragment brought, and if that one sat on a character of its
fragment, it sits on the same character of the draft. -/
structure Carries (letters : List Letter) (b : Brought) (e : MapEntry) : Prop where
  source : e.source = b.entry.source
  original : e.original = b.entry.original
  name : e.name = b.entry.name
  place : ∀ a c r, b.fragment.code.toList = a ++ c :: r → b.entry.generated = Position.origin.after a →
    ∃ front back, letters = front ++ ⟨c, b.operation, a.length⟩ :: back ∧
      e.generated = Position.origin.after (front.map (·.char))

/-- A draft is true to its account.  Letters are told apart by where they come from. -/
structure Sound (h : History) : Prop where
  code : h.letters.map (·.char) = h.draft.code
  distinct : (h.letters.map fun l => (l.operation, l.index)).Nodup
  known : ∀ l ∈ h.letters, l.operation < h.operations
  tip : h.draft.tip = Position.origin.after h.draft.code
  entries : List.Forall₂ (Carries h.letters) h.brought h.draft.entries
  keys : (h.draft.contents.map (·.1)).Nodup
  contents : ∀ s, h.draft.contents.lookup s = h.fragments.findSome? (·.firstContent s)

end History

/-! ### Letters -/

theorem map_char_lettersOf (n : Nat) (text : List Char) :
    (lettersOf n text).map (·.char) = text := by
  unfold lettersOf
  rw [List.map_map]
  exact List.zipIdx_map_fst 0 text

theorem operation_of_mem_lettersOf {n : Nat} {text : List Char} {l : Letter}
    (h : l ∈ lettersOf n text) : l.operation = n := by
  obtain ⟨x, -, rfl⟩ := List.mem_map.1 h
  rfl

theorem nodup_lettersOf (n : Nat) (text : List Char) :
    ((lettersOf n text).map fun l => (l.operation, l.index)).Nodup := by
  have hpairs : (lettersOf n text).map (fun l => (l.operation, l.index)) =
      (List.range' 0 text.length).map (Prod.mk n) := by
    rw [← List.zipIdx_map_snd 0 text, List.map_map]
    unfold lettersOf
    rw [List.map_map]
    rfl
  rw [hpairs]
  apply List.Nodup.map
  · intro i j hij
    exact (Prod.mk.inj hij).2
  · exact List.nodup_range'

/-- Each character of a text is written at its index. -/
theorem exists_lettersOf_append (n : Nat) (a r : List Char) (c : Char) :
    ∃ back, lettersOf n (a ++ c :: r) = lettersOf n a ++ ⟨c, n, a.length⟩ :: back := by
  refine ⟨(r.zipIdx (a.length + 1)).map fun (c, i) => ⟨c, n, i⟩, ?_⟩
  simp [lettersOf, List.zipIdx_append]

/-! ### Contents -/

theorem lookup_addContents (known more : List (String × String)) (s : String) :
    (addContents known more).lookup s = (known.lookup s).or (more.lookup s) := by
  induction more generalizing known with
  | nil => simp [addContents]
  | cons c more ih =>
    obtain ⟨t, content⟩ := c
    rw [addContents, List.lookup_cons]
    by_cases hs : s = t
    · subst hs
      split
      · next hknown =>
        obtain ⟨x, hx, hkey⟩ := List.any_eq_true.1 hknown
        have hfound : (known.lookup s).isSome := by
          rw [List.lookup_isSome_iff]
          exact ⟨x, hx, BEq.symm hkey⟩
        obtain ⟨content', hcontent'⟩ := Option.isSome_iff_exists.1 hfound
        simp [ih, hcontent']
      · rw [ih, List.lookup_append]
        simp
    · have hne : (s == t) = false := by simpa using hs
      rw [hne]
      split
      · exact ih known
      · rw [ih, List.lookup_append, List.lookup_cons, hne]
        simp

theorem nodup_addContents {known : List (String × String)} (more : List (String × String))
    (h : (known.map (·.1)).Nodup) : ((addContents known more).map (·.1)).Nodup := by
  induction more generalizing known with
  | nil => exact h
  | cons c more ih =>
    obtain ⟨t, content⟩ := c
    rw [addContents]
    split
    · exact ih h
    · next hnew =>
      apply ih
      rw [List.map_append, List.nodup_append]
      refine ⟨h, by simp, ?_⟩
      intro s hs s' hs' heq
      obtain rfl : s' = t := by simpa using hs'
      subst heq
      obtain ⟨x, hx, rfl⟩ := List.mem_map.1 hs
      exact hnew (List.any_eq_true.2 ⟨x, hx, by simp⟩)

theorem lookup_embedded (map : SourceMap) (s : String) :
    (embedded map).lookup s = map.firstContent s := by
  unfold embedded SourceMap.firstContent
  induction map.sourceNames.zipIdx with
  | nil => rfl
  | cons x xs ih =>
    obtain ⟨name, i⟩ := x
    rw [List.filterMap_cons, List.findSome?_cons]
    dsimp only
    cases map.contentAt i with
    | none =>
      rw [ite_self]
      exact ih
    | some content =>
      rw [Option.map_some, List.lookup_cons]
      by_cases hs : name = s
      · simp [hs]
      · rw [if_neg hs, beq_eq_false_iff_ne.2 (Ne.symm hs)]
        exact ih

/-- Where each source has one content, the last one is the first one. -/
theorem find?_reverse_eq_lookup {cs : List (String × String)} (h : (cs.map (·.1)).Nodup)
    (s : String) : (cs.reverse.find? (·.1 == s)).map (·.2) = cs.lookup s := by
  induction cs with
  | nil => rfl
  | cons c cs ih =>
    obtain ⟨t, content⟩ := c
    rw [List.map_cons, List.nodup_cons] at h
    rw [List.reverse_cons, List.find?_append, Option.map_or, ih h.2, List.lookup_cons]
    by_cases hs : s = t
    · subst hs
      have hnone : cs.lookup s = none := by
        rw [List.lookup_eq_none_iff]
        intro p hp
        simp only [bne_iff_ne, ne_eq]
        rintro rfl
        exact h.1 (List.mem_map.2 ⟨p, hp, rfl⟩)
      simp [hnone]
    · have hne : (s == t) = false := by simpa using hs
      have hne' : (t == s) = false := beq_eq_false_iff_ne.2 (Ne.symm hs)
      simp [hne, hne']

theorem lookup_filter {p : String × String → Bool} {cs : List (String × String)} {s : String}
    (h : ∀ content, p (s, content) = true) : (cs.filter p).lookup s = cs.lookup s := by
  induction cs with
  | nil => rfl
  | cons c cs ih =>
    obtain ⟨t, content⟩ := c
    by_cases hs : s = t
    · subst hs
      rw [List.filter_cons_of_pos (h content), List.lookup_cons, List.lookup_cons, ih]
    · have hne : (s == t) = false := by simpa using hs
      rw [List.filter_cons, List.lookup_cons, hne]
      split
      · rw [List.lookup_cons, hne, ih]
      · exact ih

/-! ### Operations -/

namespace History

section Carries

variable {letters : List Letter} {b : Brought} {e : MapEntry}

/-- What is appended leaves mappings where they are. -/
theorem Carries.append (h : Carries letters b e) (more : List Letter) :
    Carries (letters ++ more) b e where
  source := h.source
  original := h.original
  name := h.name
  place := by
    intro a c r hcode hplace
    obtain ⟨front, back, hletters, hgenerated⟩ := h.place a c r hcode hplace
    exact ⟨front, back ++ more, by simp [hletters], hgenerated⟩

/-- What is inserted moves the mappings behind it with their characters. -/
theorem Carries.insert (h : Carries letters b e) {n : Nat} {more : List Letter}
    {front text : List Char} (hfront : (letters.take n).map (·.char) = front)
    (htext : more.map (·.char) = text) :
    Carries (letters.take n ++ more ++ letters.drop n) b
      { e with generated := e.generated.shift (.after .origin front) (.after .origin text) } where
  source := h.source
  original := h.original
  name := h.name
  place := by
    intro a c r hcode hplace
    obtain ⟨before, behind, hletters, hgenerated⟩ := h.place a c r hcode hplace
    by_cases hbefore : before.length < n
    · -- the character stands before the insertion, which does not move it
      obtain ⟨m, rfl⟩ : ∃ m, n = before.length + (m + 1) := ⟨n - before.length - 1, by omega⟩
      have htake : letters.take (before.length + (m + 1)) =
          before ++ ⟨c, b.operation, a.length⟩ :: behind.take m := by
        rw [hletters, List.take_length_add_append, List.take_succ_cons]
      refine ⟨before, behind.take m ++ more ++ letters.drop (before.length + (m + 1)), ?_, ?_⟩
      · rw [htake]
        simp
      · show e.generated.shift _ _ = _
        rw [hgenerated, Position.shift_of_lt]
        rw [← hfront, htake, List.map_append, List.map_cons, Position.after_append]
        exact Position.lt_after_cons _ _ _
    · -- the character stands behind the insertion and moves with the text between them
      have htake : letters.take n = before.take n := by
        rw [hletters, List.take_append_of_le_length (by omega)]
      have hdrop : letters.drop n = before.drop n ++ ⟨c, b.operation, a.length⟩ :: behind := by
        rw [hletters, List.drop_append_of_le_length (by omega)]
      refine ⟨letters.take n ++ more ++ before.drop n, behind, ?_, ?_⟩
      · rw [hdrop]
        simp
      · show e.generated.shift _ _ = _
        have hmap : before.map (·.char) = front ++ (before.drop n).map (·.char) := by
          rw [← hfront, htake, ← List.map_append, List.take_append_drop]
        rw [hgenerated, hmap, Position.shift_after_append, List.map_append, List.map_append, hfront,
          htext]

end Carries

section Sound

variable {h : History} (hs : h.Sound)

include hs

/-- The letters of one more text are told apart too, wherever it is put. -/
theorem Sound.letters_perm {text : List Char} {ls : List Letter}
    (hperm : ls.Perm (h.letters ++ lettersOf h.operations text)) :
    (ls.map fun l => (l.operation, l.index)).Nodup ∧ ∀ l ∈ ls, l.operation < h.operations + 1 := by
  constructor
  · rw [(hperm.map _).nodup_iff, List.map_append, List.nodup_append]
    refine ⟨hs.distinct, nodup_lettersOf _ _, ?_⟩
    intro x hx y hy heq
    obtain ⟨l, hl, rfl⟩ := List.mem_map.1 hx
    obtain ⟨l', hl', rfl⟩ := List.mem_map.1 hy
    have hold := hs.known l hl
    have hnew := operation_of_mem_lettersOf hl'
    have hsame := (Prod.mk.inj heq).1
    omega
  · intro l hl
    rcases List.mem_append.1 (hperm.mem_iff.1 hl) with hl | hl
    · have hold := hs.known l hl
      omega
    · have hnew := operation_of_mem_lettersOf hl
      omega

theorem Sound.map_char_append (text : List Char) :
    (h.letters ++ lettersOf h.operations text).map (·.char) = h.draft.code ++ text := by
  rw [List.map_append, hs.code, map_char_lettersOf]

theorem Sound.tip_after (text : List Char) :
    h.draft.tip.after text = Position.origin.after (h.draft.code ++ text) := by
  rw [Position.after_append, ← hs.tip]

theorem Sound.push (text : List Char) : (h.perform (.push text)).Sound where
  code := hs.map_char_append text
  distinct := (hs.letters_perm (.refl _)).1
  known := (hs.letters_perm (.refl _)).2
  tip := hs.tip_after text
  entries := by
    show List.Forall₂ _ (h.brought ++ []) h.draft.entries
    rw [List.append_nil]
    apply hs.entries.imp
    intro b e hcarries
    exact hcarries.append _
  keys := hs.keys
  contents := by
    intro s
    show _ = (h.fragments ++ []).findSome? _
    rw [List.append_nil]
    exact hs.contents s

/-- The mappings of a fragment move to where its characters are written. -/
theorem Sound.carries_movedEntries {f : Fragment} {map : SourceMap} (hmap : f.map = some map) :
    List.Forall₂ (Carries (h.letters ++ lettersOf h.operations f.code.toList))
      (f.sourced.map (⟨h.operations, f, ·⟩)) (movedEntries h.draft.tip map) := by
  have hsourced : f.sourced = map.entries.filter (·.source.isSome) := by
    unfold Fragment.sourced
    rw [hmap]
  rw [movedEntries, hsourced, List.forall₂_map_left_iff, List.forall₂_map_right_iff,
    List.forall₂_same]
  intro e _
  refine ⟨rfl, rfl, rfl, ?_⟩
  intro a c r hcode hplace
  dsimp only at hcode hplace ⊢
  obtain ⟨back, hback⟩ := exists_lettersOf_append h.operations a r c
  refine ⟨h.letters ++ lettersOf h.operations a, back, ?_, ?_⟩
  · rw [hcode, hback, List.append_assoc]
  · rw [hplace, ← Position.after_eq_offsetBy, hs.map_char_append, hs.tip_after]

theorem Sound.fragment (f : Fragment) : (h.perform (.fragment f)).Sound where
  code := by
    show _ = (h.draft.pushFragment _ _).code
    rw [code_pushFragment]
    exact hs.map_char_append _
  distinct := (hs.letters_perm (.refl _)).1
  known := (hs.letters_perm (.refl _)).2
  tip := by
    show (h.draft.pushFragment _ _).tip = Position.origin.after (h.draft.pushFragment _ _).code
    rw [code_pushFragment, ← hs.tip_after]
    unfold pushFragment
    cases f.map <;> rfl
  entries := by
    have hold : List.Forall₂ (Carries (h.letters ++ lettersOf h.operations f.code.toList))
        h.brought h.draft.entries := by
      apply hs.entries.imp
      intro b e hcarries
      exact hcarries.append _
    show List.Forall₂ _ (h.brought ++ (f.sourced.map _ ++ [])) (h.draft.pushFragment _ _).entries
    rw [List.append_nil]
    cases hmap : f.map with
    | none =>
      have hsourced : f.sourced = [] := by
        unfold Fragment.sourced
        rw [hmap]
      rw [hsourced, List.map_nil, List.append_nil]
      exact hold
    | some map => exact List.rel_append hold (hs.carries_movedEntries hmap)
  keys := by
    show ((h.draft.pushFragment _ _).contents.map (·.1)).Nodup
    cases f.map with
    | none => exact hs.keys
    | some map => exact nodup_addContents _ hs.keys
  contents := by
    intro s
    show (h.draft.pushFragment _ _).contents.lookup s = (h.fragments ++ [f]).findSome? _
    rw [List.findSome?_append, ← hs.contents, List.findSome?_singleton]
    unfold Fragment.firstContent
    cases f.map with
    | none => exact (Option.or_none).symm
    | some map =>
      show (addContents _ _).lookup s = _
      rw [lookup_addContents, lookup_embedded, Option.bind_some]

/-- Where nothing is found, nothing is inserted. -/
theorem Sound.insert_of_none {pattern : List Char} (text : List Char)
    (hsplit : splitLast? pattern h.draft.code = none) : (h.perform (.insert pattern text)).Sound := by
  have hbrought : (h.perform (.insert pattern text)).brought = h.brought := List.append_nil _
  have hfragments : (h.perform (.insert pattern text)).fragments = h.fragments := List.append_nil _
  have hdraft : (h.perform (.insert pattern text)).draft = h.draft := by
    show (h.draft.insertBeforeLast? pattern text).getD h.draft = h.draft
    unfold insertBeforeLast?
    rw [hsplit]
    rfl
  have hletters : (h.perform (.insert pattern text)).letters = h.letters := by
    show h.write (.insert pattern text) = h.letters
    simp only [write, hs.code, hsplit]
  refine ⟨?_, ?_, ?_, ?_, ?_, ?_, ?_⟩
  · rw [hdraft, hletters]
    exact hs.code
  · rw [hletters]
    exact hs.distinct
  · rw [hletters]
    intro l hl
    exact Nat.lt_succ_of_lt (hs.known l hl)
  · rw [hdraft]
    exact hs.tip
  · rw [hdraft, hletters, hbrought]
    exact hs.entries
  · rw [hdraft]
    exact hs.keys
  · rw [hdraft, hfragments]
    exact hs.contents

/-- The text is inserted behind the front of the code. -/
theorem Sound.insert_of_some {pattern front back : List Char} (text : List Char)
    (hsplit : splitLast? pattern h.draft.code = some (front, back)) :
    (h.perform (.insert pattern text)).Sound := by
  have hbrought : (h.perform (.insert pattern text)).brought = h.brought := List.append_nil _
  have hfragments : (h.perform (.insert pattern text)).fragments = h.fragments := List.append_nil _
  have hcode := splitLast_eq hsplit
  have htake : (h.letters.take front.length).map (·.char) = front := by
    rw [List.map_take, hs.code, hcode, List.append_assoc, List.take_left]
  have hletters : (h.perform (.insert pattern text)).letters =
      h.letters.take front.length ++ lettersOf h.operations text ++
        h.letters.drop front.length := by
    show h.write (.insert pattern text) = _
    simp only [write, hs.code, hsplit]
  have hdraft : (h.perform (.insert pattern text)).draft =
      { h.draft with
        code := front ++ text ++ h.draft.code.drop front.length
        tip := h.draft.tip.shift (.after .origin front) (.after .origin text)
        entries := h.draft.entries.map fun e =>
          { e with generated := e.generated.shift (.after .origin front) (.after .origin text) } } := by
    show (h.draft.insertBeforeLast? pattern text).getD h.draft = _
    unfold insertBeforeLast?
    rw [hsplit]
    rfl
  have hperm : (h.perform (.insert pattern text)).letters.Perm
      (h.letters ++ lettersOf h.operations text) := by
    rw [hletters, List.append_assoc]
    refine (List.perm_append_comm.append_left _).trans ?_
    rw [← List.append_assoc, List.take_append_drop]
  refine ⟨?_, (hs.letters_perm hperm).1, (hs.letters_perm hperm).2, ?_, ?_, ?_, ?_⟩
  · rw [hdraft, hletters, List.map_append, List.map_append, htake, map_char_lettersOf, List.map_drop,
      hs.code]
  · have hwhole : h.draft.code = front ++ h.draft.code.drop front.length := by
      rw [hcode, List.append_assoc, List.drop_left]
    rw [hdraft]
    show h.draft.tip.shift _ _ = _
    rw [hs.tip, hwhole, Position.shift_after_append, List.drop_left]
  · rw [hdraft, hletters, hbrought, List.forall₂_map_right_iff]
    apply hs.entries.imp
    intro b e hcarries
    exact hcarries.insert htake (map_char_lettersOf _ _)
  · rw [hdraft]
    exact hs.keys
  · rw [hdraft, hfragments]
    exact hs.contents

theorem Sound.insert (pattern text : List Char) : (h.perform (.insert pattern text)).Sound := by
  cases hsplit : splitLast? pattern h.draft.code with
  | none => exact hs.insert_of_none text hsplit
  | some parts => exact hs.insert_of_some text hsplit

/-- One operation keeps a draft true to its account. -/
theorem Sound.perform (op : Operation) : (h.perform op).Sound := by
  cases op with
  | push text => exact hs.push text
  | newline => exact hs.push ['\n']
  | fragment f => exact hs.fragment f
  | insert pattern text => exact hs.insert pattern text

end Sound

theorem sound_empty : Sound {} where
  code := rfl
  distinct := .nil
  known := by
    intro l hl
    exact absurd hl List.not_mem_nil
  tip := rfl
  entries := .nil
  keys := .nil
  contents _ := rfl

/-- After any operations a draft is true to its account. -/
theorem sound_of (ops : List Operation) : (of ops).Sound := by
  have hrun : ∀ h : History, h.Sound → (ops.foldl History.perform h).Sound := by
    induction ops with
    | nil =>
      intro h hs
      exact hs
    | cons op ops ih =>
      intro h hs
      exact ih _ (hs.perform op)
  exact hrun {} sound_empty

theorem draft_of (ops : List Operation) : (of ops).draft = ops.foldl Draft.perform {} := by
  have hrun : ∀ h : History, (ops.foldl History.perform h).draft = ops.foldl Draft.perform h.draft := by
    induction ops with
    | nil =>
      intro h
      rfl
    | cons op ops ih =>
      intro h
      exact ih _
  exact hrun {}

end History

/-! ### The finished map -/

/-- Nothing stands on the last line just if its column is zero. -/
theorem atLineStart_iff {d : Draft} (h : d.tip = Position.origin.after d.code) :
    d.atLineStart = true ↔ d.tip.column = 0 := by
  rw [h]
  unfold atLineStart
  rcases List.eq_nil_or_concat d.code with hcode | ⟨a, c, hcode⟩
  · simp [hcode]
  · rw [hcode, List.concat_eq_append, List.getLast?_concat, Position.after_append,
      Position.after_cons, Position.after_nil]
    have hunits := one_le_units c
    unfold Position.step
    by_cases hc : c = '\n'
    · simp [hc]
    · simp only [hc, if_false, decide_false, Bool.false_eq_true, false_iff]
      omega

/-- What is expected of the code and the map of a draft with some account: the map has the mappings of
the draft, in the order of their places and at one place in the order of their coming.  Its sources are
those that they lead to, in the order of first use, and of each it embeds what the first fragment
embeds that has a content for it. -/
structure History.Finishes (h : History) (file : Option String) (code : String) (map : SourceMap) :
    Prop where
  code : code.toList = h.draft.code
  file : map.file = file
  mappings : map.entries.Perm h.draft.entries
  ordered : Ordered map.entries
  ties : ∀ p, map.entries.filter (·.generated = p) = h.draft.entries.filter (·.generated = p)
  sources : map.sourceNames = firstUses (map.entries.filterMap (·.source))
  contents : ∀ s ∈ map.sourceNames, map.contentOf s = h.fragments.findSome? (·.firstContent s)

theorem ordered_filter_generated (es : List MapEntry) (p : Position) :
    Ordered (es.filter (·.generated = p)) := by
  apply List.pairwise_of_forall_mem_list
  intro a ha b hb
  have hpa : a.generated = p := by simpa using (List.mem_filter.1 ha).2
  have hpb : b.generated = p := by simpa using (List.mem_filter.1 hb).2
  rw [hpa, hpb]
  exact Position.le_refl p

theorem History.Sound.finishes {h : History} (hs : h.Sound) (file : Option String) :
    h.Finishes file (h.draft.finish file).1 (h.draft.finish file).2 := by
  have hentries : (h.draft.finish file).2.entries = stableSort MapEntry.le h.draft.entries :=
    entries_finish
  have hused : ∀ s ∈ (h.draft.contents.filter fun c =>
      (stableSort MapEntry.le h.draft.entries).any (·.source == some c.1)).map (·.1),
      s ∈ [] ∨ s ∈ (stableSort MapEntry.le h.draft.entries).filterMap (·.source) := by
    intro s hmem
    obtain ⟨c, hc, rfl⟩ := List.mem_map.1 hmem
    obtain ⟨e, he, hsource⟩ := List.any_eq_true.1 (List.mem_filter.1 hc).2
    exact .inr (List.mem_filterMap.2 ⟨e, he, by simpa using hsource⟩)
  have hsources : (h.draft.finish file).2.sources =
      firstUses ((stableSort MapEntry.le h.draft.entries).filterMap (·.source)) :=
    firstUsesAfter_append hused
  have hnames : (h.draft.finish file).2.sourceNames = (h.draft.finish file).2.sources := rfl
  refine ⟨String.toList_ofList, rfl, ?_, ?_, ?_, ?_, ?_⟩
  · rw [hentries]
    exact perm_stableSort _ _
  · rw [hentries]
    exact ordered_stableSort _
  · intro p
    rw [hentries, filter_stableSort_entries]
    exact stableSort_of_ordered (ordered_filter_generated _ p)
  · rw [hnames, hentries, hsources]
  · intro s hmem
    rw [hnames] at hmem
    have hlisted : s ∈ (stableSort MapEntry.le h.draft.entries).filterMap (·.source) := by
      rw [hsources] at hmem
      exact mem_firstUses.1 hmem
    obtain ⟨e, he, hsource⟩ := List.mem_filterMap.1 hlisted
    have hcontent := SourceMap.contentOf_ofEntries hmem fun t _ heq => heq
    refine hcontent.trans ?_
    rw [find?_reverse_eq_lookup (hs.keys.sublist (List.filter_sublist.map _)), lookup_filter,
      hs.contents]
    intro content
    exact List.any_eq_true.2 ⟨e, he, by simp [hsource]⟩

/-- **A draft keeps its mappings on their characters**, whatever is done to it, and so does its
finished map. -/
theorem exact_finish (ops : List Operation) (file : Option String) :
    (History.of ops).draft = ops.foldl perform {} ∧ (History.of ops).Sound ∧
      ((History.of ops).draft.atLineStart = true ↔ (History.of ops).draft.tip.column = 0) ∧
      (History.of ops).Finishes file ((History.of ops).draft.finish file).1
        ((History.of ops).draft.finish file).2 := by
  have hs := History.sound_of ops
  exact ⟨History.draft_of ops, hs, atLineStart_iff hs.tip, hs.finishes file⟩

end Draft

end SingleFile
