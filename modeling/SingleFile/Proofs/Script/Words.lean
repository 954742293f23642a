import SingleFile.Proofs.Script.Tokens

/-!
# Words on their own

What stands around a word does not matter to it: the text that it takes is read as that word wherever
it stands, if what follows does not go on with a name, and it has no line break (`Taken.Alone`,
`exists_taken_of_word`).  Only the reader of words gives words, so this is so of each token that is one.
Such a text is an `Identifier`.
-/

namespace SingleFile.Script

open Cursor

/-- A text does not go on with a name or an escape. -/
def EndsWord (cs : List Char) : Prop :=
  ∀ c ∈ cs.head?, c ≠ '\\' ∧ startsName c = false ∧ inName c = false

theorem endsWord_nil : EndsWord [] := fun _ hc => by cases hc

/-- The same place of the reader of a word, in the braces of an escape elsewhere. -/
def InWord.since (start : Nat) : InWord → InWord
  | .plain => .plain
  | .braces _ value any => .braces start value any

/-- Where a word is read from a text, just that word is read `again` from what it takes, which is on
one line, at any offset and in front of what ends a word. -/
def Taken.Alone (t : Taken) (offset : Nat) (cs : List Char)
    (again : Nat → Nat → List Char → Taken) : Prop :=
  ∀ w e, t.lexeme = .word w e → ∃ taken, Moved ⟨offset, cs⟩ taken ⟨t.offset, t.rest⟩ ∧
    '\n' ∉ taken ∧ ∀ start o behind, EndsWord behind →
      again start o (taken ++ behind) = ⟨.word w e, o + byteLength taken, behind, []⟩

namespace Taken

variable {t : Taken} {offset n : Nat} {x rest : List Char}
  {again again' : Nat → Nat → List Char → Taken}

theorem alone_broken {start : Nat} : Alone ⟨.broken start, n, rest, []⟩ offset x again := by
  intro w e h
  cases h

/-- A word may end at once. -/
theorem alone_empty (h : ∀ start o behind, EndsWord behind →
    again start o behind = ⟨.word "" false, o, behind, []⟩) :
    Alone ⟨.word "" false, offset, rest, []⟩ offset rest again := by
  intro w e hw
  cases hw
  exact ⟨[], ⟨rfl, rfl⟩, List.not_mem_nil, h⟩

/-- What is read over in front of a word belongs to it. -/
theorem Alone.over (h : t.Alone (offset + n) rest again') (hx : '\n' ∉ x) (hsize : byteLength x = n)
    (hagain : ∀ start o, ∃ start', ∀ y, again start o (x ++ y) = again' start' (o + n) y) :
    t.Alone offset (x ++ rest) again := by
  subst hsize
  intro w e hw
  obtain ⟨taken, hmoved, hline, hread⟩ := h w e hw
  refine ⟨x ++ taken, (moved_mk offset x rest).trans hmoved, ?_, fun start o behind hends => ?_⟩
  · rw [List.mem_append]
    rintro (hc | hc)
    · exact hx hc
    · exact hline hc
  · obtain ⟨start', hsame⟩ := hagain start o
    rw [List.append_assoc, hsame, hread _ _ _ hends, byteLength_append, Nat.add_assoc]

/-- So does a character for which it stands. -/
theorem Alone.cons (h : t.Alone offset rest again) (c : Char) (escaped : Bool) :
    (t.cons c escaped).Alone offset rest fun start o y => (again start o y).cons c escaped := by
  intro w e hw
  unfold Taken.cons at hw
  split at hw
  · next text e' hlexeme =>
    obtain ⟨rfl, rfl⟩ := Lexeme.word.inj hw
    obtain ⟨taken, hmoved, hline, hread⟩ := h _ _ hlexeme
    refine ⟨taken, ?_, hline, fun start o behind hends => ?_⟩
    · unfold Taken.cons
      rw [hlexeme]
      exact hmoved
    · dsimp only
      rw [hread _ _ _ hends]
      rfl
  · next hno => exact absurd hw (hno w e)

end Taken

open Taken

/-- Nothing is read as a word where it does not go on with one. -/
theorem readWord_of_endsWord {cs : List Char} (h : EndsWord cs) (first : Bool) (offset : Nat) :
    readWord .plain first offset cs = ⟨.word "" false, offset, cs, []⟩ := by
  cases cs with
  | nil => rfl
  | cons c r =>
    obtain ⟨hc, hstarts, hin⟩ := h c rfl
    have hname : ¬ (if first then startsName c else inName c) = true := by
      cases first <;> simp [hstarts, hin]
    rw [readWord, if_neg hc, if_neg hname]
    · exact fun _ h _ => hc h
    · exact fun _ _ _ _ _ h _ => hc h

theorem ne_newline_of_hexValue {c : Char} {d : Nat} (h : Json.hexValue c = some d) : c ≠ '\n' := by
  have hnone : Json.hexValue '\n' = none := by decide +kernel
  rintro rfl
  rw [hnone] at h
  cases h

theorem notMem_of_hexValue4 {a b c d : Char} {n : Nat} (h : Json.hexValue4 a b c d = some n) :
    '\n' ∉ [a, b, c, d] := by
  unfold Json.hexValue4 at h
  obtain ⟨va, ha, h⟩ := Option.bind_eq_some_iff.1 h
  obtain ⟨vb, hb, h⟩ := Option.bind_eq_some_iff.1 h
  obtain ⟨vc, hc, h⟩ := Option.bind_eq_some_iff.1 h
  obtain ⟨vd, hd, -⟩ := Option.bind_eq_some_iff.1 h
  simp [(ne_newline_of_hexValue ha).symm, (ne_newline_of_hexValue hb).symm,
    (ne_newline_of_hexValue hc).symm, (ne_newline_of_hexValue hd).symm]

theorem ne_newline_of_inWord {first : Bool} {c : Char}
    (h : (if first then startsName c else inName c) = true) : c ≠ '\n' := by
  have hnone (first : Bool) : (if first then startsName '\n' else inName '\n') = false := by
    revert first
    decide +kernel
  rintro rfl
  rw [hnone first] at h
  cases h

theorem alone_readWord (state : InWord) (first : Bool) (offset : Nat) (cs : List Char) :
    (readWord state first offset cs).Alone offset cs
      fun start => readWord (state.since start) first := by
  fun_induction readWord state first offset cs with
  | case1 | case12 => exact alone_empty fun _ o behind hends => readWord_of_endsWord hends _ o
  | case2 | case4 | case6 | case9 | case10 => exact alone_broken
  | case3 start value first offset r w hw ih =>
    refine (ih.cons w true).over (x := ['\x7d']) (by decide) rfl fun start o => ⟨start, fun y => ?_⟩
    show readWord (.braces start value true) first o ('\x7d' :: y) = _
    rw [readWord.eq_def]
    simp only [if_true, hw]
    rfl
  | case5 start value digits first offset c r hc d hd ih =>
    refine ih.over (x := [c]) ?_ (utf8Size_eq_one_of_hexValue hd) fun start o => ⟨start, fun y => ?_⟩
    · simpa using (ne_newline_of_hexValue hd).symm
    · show readWord (.braces start value digits) first o (c :: y) = _
      rw [readWord.eq_def]
      simp only [hc, if_false, hd]
      rfl
  | case7 first offset r ih =>
    refine ih.over (x := ['\\', 'u', '\x7b']) (by decide) rfl fun start o => ⟨o, fun y => ?_⟩
    rw [InWord.since, List.cons_append, List.cons_append, List.singleton_append, readWord]
    rfl
  | case8 first offset a b c d r ha w hw ih =>
    obtain ⟨v, hv, -⟩ := Option.bind_eq_some_iff.1 hw
    refine (ih.cons w true).over (x := ['\\', 'u'] ++ [a, b, c, d]) ?_ ?_
      fun start o => ⟨start, fun y => ?_⟩
    · rw [List.mem_append]
      rintro (hc | hc)
      · revert hc
        decide
      · exact notMem_of_hexValue4 hv hc
    · rw [byteLength_append, byteLength_of_hexValue4 hv]
      rfl
    · show readWord .plain first o ('\\' :: 'u' :: a :: b :: c :: d :: y) = _
      rw [readWord, hw]
      · rfl
      · exact ha
  | case11 first offset c r hbraces hdigits hc hname ih =>
    refine (ih.cons c false).over (x := [c]) ?_ rfl fun start o => ⟨start, fun y => ?_⟩
    · simpa using (ne_newline_of_inWord hname).symm
    · rw [InWord.since, List.singleton_append, readWord, if_neg hc, if_pos hname]
      · exact fun _ h _ => hc h
      · exact fun _ _ _ _ _ h _ => hc h

/-- A word that is read is empty only where the text does not go on with one. -/
theorem ne_empty_of_readWord {state : InWord} {first : Bool} {offset : Nat} {cs : List Char}
    {w : String} {e : Bool} (h : (readWord state first offset cs).lexeme = .word w e) :
    w ≠ "" ∨ state = .plain ∧ ∀ c ∈ cs.head?,
      c ≠ '\\' ∧ (if first then startsName c else inName c) = false := by
  have hcons {c : Char} {escaped : Bool} {t : Taken}
      (h : (t.cons c escaped).lexeme = .word w e) : w ≠ "" := by
    unfold Taken.cons at h
    split at h
    · obtain ⟨rfl, -⟩ := Lexeme.word.inj h
      intro hempty
      simpa using congrArg String.toList hempty
    · next hno => exact absurd h (hno w e)
  fun_induction readWord state first offset cs with
  | case1 => exact .inr ⟨rfl, fun _ hc => by cases hc⟩
  | case2 | case4 | case6 | case9 | case10 => cases h
  | case3 | case8 | case11 => exact .inl (hcons h)
  | case5 | case7 =>
    rename_i ih
    rcases ih h with hw | ⟨hplain, -⟩
    · exact .inl hw
    · cases hplain
  | case12 first offset c r _ _ hc hname =>
    refine .inr ⟨rfl, fun d hd => ?_⟩
    obtain rfl : c = d := Option.some.inj hd
    exact ⟨hc, by simpa using hname⟩

def Taken.NoWord (t : Taken) : Prop := ∀ w e, t.lexeme ≠ .word w e

theorem noWord_ite {c : Prop} [Decidable c] {t t' : Taken} (h : t.NoWord) (h' : t'.NoWord) :
    (if c then t else t').NoWord := by
  split
  · exact h
  · exact h'

theorem noWord_broken (start offset : Nat) (rest : List Char) :
    Taken.NoWord ⟨.broken start, offset, rest, []⟩ := fun _ _ h => by cases h

theorem noWord_endNumber (start offset : Nat) (rest : List Char) (fine : Bool) (more : List Nat) :
    (endNumber start offset rest fine more).NoWord := by
  intro w e
  unfold endNumber
  dsimp only
  split
  · split <;> simp
  · simp

theorem noWord_readExponent (start offset : Nat) (rest : List Char) (fine : Bool) :
    (readExponent start offset rest fine).NoWord := by
  unfold readExponent
  dsimp only
  split
  · split <;> exact noWord_ite (noWord_broken _ _ _) (noWord_endNumber _ _ _ _ _)
  · split <;> exact noWord_ite (noWord_broken _ _ _) (noWord_endNumber _ _ _ _ _)
  · exact noWord_endNumber _ _ _ _ _

theorem noWord_readBased (base start : Nat) (rest : List Char) :
    (readBased base start rest).NoWord :=
  noWord_ite (noWord_broken _ _ _) (noWord_endNumber _ _ _ _ _)

theorem noWord_readNumber (start : Nat) (cs : List Char) : (readNumber start cs).NoWord := by
  unfold readNumber
  split
  any_goals exact noWord_readBased _ _ _
  unfold readDecimal
  dsimp only
  refine noWord_ite (noWord_endNumber _ _ _ _ _) ?_
  split
  · exact noWord_readExponent _ _ _ _
  · exact noWord_endNumber _ _ _ _ _
  · exact noWord_readExponent _ _ _ _

theorem noWord_readString (start : Nat) (quote : Char) (cs : List Char) :
    (readString start quote cs).NoWord := by
  intro w e
  unfold readString
  dsimp only
  split <;> simp

theorem takeToken_of_startsWord {c : Char} (h : (startsName c || c = '\\') = true) (offset : Nat)
    (r : List Char) : takeToken offset (c :: r) = readWord .plain true offset (c :: r) := if_pos h

/-- A word starts as a name does, or with an escape. -/
theorem noWord_takeToken {c : Char} (h : ¬ (startsName c || c = '\\') = true) (offset : Nat)
    (r : List Char) : (takeToken offset (c :: r)).NoWord := by
  unfold takeToken
  dsimp only
  rw [if_neg h]
  refine noWord_ite (noWord_readNumber _ _) (noWord_ite (noWord_readString _ _ _) ?_)
  refine noWord_ite (noWord_readExponent _ _ _ _) ?_
  split
  · exact fun _ _ hsign => by cases hsign
  · exact noWord_broken _ _ _

/-- A word that is taken can be taken wherever it stands, if what follows ends it. -/
theorem exists_taken_of_word {offset : Nat} {cs : List Char} {w : String} {e : Bool}
    (h : (takeToken offset cs).lexeme = .word w e) : ∃ taken,
      Moved ⟨offset, cs⟩ taken ⟨(takeToken offset cs).offset, (takeToken offset cs).rest⟩ ∧
      '\n' ∉ taken ∧ ∀ o behind, EndsWord behind →
        takeToken o (taken ++ behind) = ⟨.word w e, o + byteLength taken, behind, []⟩ := by
  cases cs with
  | nil => cases h
  | cons c r =>
    by_cases hstarts : (startsName c || c = '\\') = true
    · rw [takeToken_of_startsWord hstarts] at h ⊢
      obtain ⟨taken, hmoved, hline, hread⟩ := alone_readWord _ _ _ _ w e h
      refine ⟨taken, hmoved, hline, fun o behind hends => ?_⟩
      -- something is taken, so it starts as the text does
      cases taken with
      | nil =>
        have hoffset : (readWord .plain true offset (c :: r)).offset = offset := hmoved.2
        rcases ne_empty_of_readWord h with hw | ⟨-, hends⟩
        · have := (from_readWord _ _ _ _).word w e h hw
          omega
        · obtain ⟨hc, hname⟩ := hends c rfl
          simp_all
      | cons d taken =>
        obtain rfl : c = d := (List.cons.inj hmoved.1).1
        exact (takeToken_of_startsWord hstarts o _).trans (hread 0 o behind hends)
    · exact absurd h (noWord_takeToken hstarts offset r w e)

/-- A text that is one word is taken as that word in front of what ends it, and has no line break. -/
theorem takeToken_append_of_word {offset stop : Nat} {text : List Char} {w : String} {e : Bool}
    (h : takeToken offset text = ⟨.word w e, stop, [], []⟩) :
    '\n' ∉ text ∧ ∀ o behind, EndsWord behind →
      takeToken o (text ++ behind) = ⟨.word w e, o + byteLength text, behind, []⟩ := by
  have hlexeme : (takeToken offset text).lexeme = .word w e := by rw [h]
  obtain ⟨taken, hmoved, hline, hread⟩ := exists_taken_of_word hlexeme
  obtain rfl : text = taken := by
    have hrest := hmoved.1
    rw [h] at hrest
    simpa using hrest
  exact ⟨hline, hread⟩

/-! ### Identifiers -/

/-- A text is an identifier: all of it is one word. -/
def Identifier (text : String) : Prop :=
  ∃ offset word escaped, takeToken offset text.toList =
    ⟨.word word escaped, offset + byteLength text.toList, [], []⟩

theorem Identifier.oneLine {text : String} (h : Identifier text) : '\n' ∉ text.toList := by
  obtain ⟨offset, w, e, hread⟩ := h
  exact (takeToken_append_of_word hread).1

end SingleFile.Script
