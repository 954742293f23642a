import SingleFile.Proofs.Text.Cursor
import SingleFile.Script.Token

/-!
# Tokens are parts of the script

Every reader of a token moves over the text that it takes (`before_skipGap`, `before_readText`,
`Taken.reads_takeToken`): the offset that it gives stands before what it leaves.  So tokens start and
end between two characters of the script, and a sign covers just its own characters.
-/

namespace SingleFile

namespace Cursor

theorem Before.le {a b : Cursor} (h : a.Before b) : a.offset ≤ b.offset := by
  obtain ⟨s, -, hoffset⟩ := h
  omega

/-- What stands behind a text that is read over stands behind its start too. -/
theorem Before.over {offset size : Nat} {rest : List Char} {b : Cursor} (taken : List Char)
    (h : Before ⟨offset + size, rest⟩ b) (hsize : byteLength taken = size) :
    Before ⟨offset, taken ++ rest⟩ b := by
  obtain ⟨s, hs⟩ := h
  subst hsize
  exact ⟨taken ++ s, (moved_mk offset taken rest).trans hs⟩

theorem Before.over_cons {offset size : Nat} {c : Char} {rest : List Char} {b : Cursor}
    (h : Before ⟨offset + size, rest⟩ b) (hsize : c.utf8Size = size) :
    Before ⟨offset, c :: rest⟩ b := .over [c] h hsize

end Cursor

theorem utf8Size_eq_one_of_hexValue {c : Char} {d : Nat} (h : Json.hexValue c = some d) :
    c.utf8Size = 1 := by
  refine utf8Size_eq_one_of_lt ?_
  have hle {x y : Char} (hxy : x ≤ y) : x.toNat ≤ y.toNat := hxy
  unfold Json.hexValue at h
  split at h
  · next hc => exact Nat.lt_of_le_of_lt (hle hc.2) (by decide)
  split at h
  · next hc => exact Nat.lt_of_le_of_lt (hle hc.2) (by decide)
  split at h
  · next hc => exact Nat.lt_of_le_of_lt (hle hc.2) (by decide)
  · cases h

theorem byteLength_of_hexValue4 {a b c d : Char} {n : Nat} (h : Json.hexValue4 a b c d = some n) :
    byteLength [a, b, c, d] = 4 := by
  unfold Json.hexValue4 at h
  obtain ⟨va, ha, h⟩ := Option.bind_eq_some_iff.1 h
  obtain ⟨vb, hb, h⟩ := Option.bind_eq_some_iff.1 h
  obtain ⟨vc, hc, h⟩ := Option.bind_eq_some_iff.1 h
  obtain ⟨vd, hd, -⟩ := Option.bind_eq_some_iff.1 h
  simp [utf8Size_eq_one_of_hexValue ha, utf8Size_eq_one_of_hexValue hb,
    utf8Size_eq_one_of_hexValue hc, utf8Size_eq_one_of_hexValue hd]

namespace Script

open Cursor

/-! ### Gaps, quoted texts and regular expressions -/

theorem before_skipGap (gap : Gap) (afterBreak : Bool) (offset : Nat) (cs : List Char) :
    Before ⟨offset, cs⟩ ⟨(skipGap gap afterBreak offset cs).offset,
      (skipGap gap afterBreak offset cs).rest⟩ := by
  fun_induction skipGap gap afterBreak offset cs with
  | case1 | case2 | case13 => exact .refl _
  | case3 | case4 | case6 | case11 | case12 =>
    rename_i ih
    exact .over_cons ih rfl
  | case5 _ _ _ _ _ hslash ih =>
    obtain ⟨-, rfl⟩ : _ ∧ _ = '/' := by simpa using hslash
    exact .over_cons ih rfl
  | case7 _ _ _ ih => exact .over ['/', '/'] ih rfl
  | case8 _ _ _ ih => exact .over ['/', '*'] ih rfl
  | case9 _ _ _ after ih => exact .over ['<', '!', '-', '-'] ih rfl
  | case10 _ _ after ih => exact .over ['-', '-', '>'] ih rfl

theorem before_readText {close : Char} (hclose : close.utf8Size = 1) (lines : Bool)
    (octals malformed : List Nat) (state : InText) (offset : Nat) (cs : List Char) :
    Before ⟨offset, cs⟩ ⟨(readText close lines octals malformed state offset cs).offset,
      (readText close lines octals malformed state offset cs).rest⟩ := by
  fun_induction readText close lines octals malformed state offset cs with
  | case1 | case5 => exact .refl _
  | case2 | case6 =>
    rename_i ih
    exact .over_cons ih rfl
  | case3 => exact .over_cons (.refl _) hclose
  | case4 _ _ _ _ c r _ _ _ hsub =>
    obtain ⟨⟨-, rfl⟩, hr⟩ : (_ ∧ c = '$') ∧ r.head? = some '\x7b' := by simpa using hsub
    obtain ⟨r, rfl⟩ := List.head?_eq_some_iff.1 hr
    exact .over ['$', '\x7b'] (.refl _) rfl

theorem before_readTemplate (offset : Nat) (cs : List Char) :
    Before ⟨offset, cs⟩ ⟨(readTemplate offset cs).offset, (readTemplate offset cs).rest⟩ :=
  before_readText (by decide) _ _ _ _ _ _

theorem before_of_readPatternBody {inClass : Bool} {offset stop : Nat} {cs rest : List Char}
    (h : readPatternBody inClass offset cs = some (stop, rest)) :
    Before ⟨offset, cs⟩ ⟨stop, rest⟩ := by
  fun_induction readPatternBody inClass offset cs with
  | case1 | case2 | case4 => cases h
  | case3 _ _ c r _ ih => exact .over_cons (.over_cons (ih h) rfl) rfl
  | case5 _ _ _ _ _ _ hclose =>
    obtain ⟨rfl, -⟩ : _ = '/' ∧ _ := by simpa using hclose
    obtain ⟨rfl, rfl⟩ := Prod.mk.inj (Option.some.inj h)
    exact .over_cons (.refl _) rfl
  | case6 =>
    rename_i ih
    exact .over_cons (ih h) rfl

theorem before_readPattern (start offset : Nat) (cs : List Char) :
    Before ⟨offset, cs⟩ ⟨(readPattern start offset cs).offset,
      (readPattern start offset cs).rest⟩ := by
  unfold readPattern
  split
  · exact .refl _
  · next stop rest hbody =>
    exact (before_of_readPatternBody hbody).trans (before_takeWhile ⟨stop, rest⟩ inName)

/-! ### Words, numbers and strings -/

/-- What is taken, which is no sign, ends behind where it starts, a word behind its first
character. -/
structure Taken.From (offset : Nat) (cs : List Char) (t : Taken) : Prop where
  before : Before ⟨offset, cs⟩ ⟨t.offset, t.rest⟩
  word : ∀ w e, t.lexeme = .word w e → w ≠ "" → offset < t.offset
  sign : ∀ s, t.lexeme ≠ .sign s

namespace Taken

variable {offset n : Nat} {cs rest : List Char} {t : Taken}

theorem From.over (taken : List Char) {size : Nat} (h : t.From (offset + size) rest)
    (hsize : byteLength taken = size) : t.From offset (taken ++ rest) where
  before := .over taken h.before hsize
  word w e hl hw := Nat.lt_of_le_of_lt (Nat.le_add_right _ _) (h.word w e hl hw)
  sign := h.sign

theorem From.over_cons {c : Char} {size : Nat} (h : t.From (offset + size) rest)
    (hsize : c.utf8Size = size) : t.From offset (c :: rest) := .over [c] h hsize

theorem from_ite {c : Prop} [Decidable c] {t' : Taken} (h : t.From offset cs)
    (h' : t'.From offset cs) : (if c then t else t').From offset cs := by
  split
  · exact h
  · exact h'

/-- A character in front of a word makes a longer one. -/
theorem From.cons (h : t.From (offset + n) rest) (c : Char) (escaped : Bool) (taken : List Char)
    (hsize : byteLength taken = n) (hn : 0 < n) :
    (t.cons c escaped).From offset (taken ++ rest) := by
  have hover := h.over taken hsize
  have hle := h.before.le
  dsimp only at hle
  unfold Taken.cons
  split
  · exact ⟨hover.before, fun _ _ _ _ => by dsimp only; omega, by simp⟩
  · exact hover

end Taken

open Taken

theorem from_readWord (state : InWord) (first : Bool) (offset : Nat) (cs : List Char) :
    (readWord state first offset cs).From offset cs := by
  fun_induction readWord state first offset cs with
  | case1 | case2 | case4 | case6 | case10 | case12 => exact ⟨.refl _, by simp, by simp⟩
  | case3 =>
    rename_i ih
    exact ih.cons _ _ ['\x7d'] rfl (by decide)
  | case5 =>
    rename_i hvalue ih
    exact ih.over_cons (utf8Size_eq_one_of_hexValue hvalue)
  | case7 =>
    rename_i ih
    exact ih.over ['\\', 'u', '\x7b'] rfl
  | case8 _ _ a b c d =>
    rename_i hvalue ih
    obtain ⟨v, hv, -⟩ := Option.bind_eq_some_iff.1 hvalue
    refine ih.cons _ _ ['\\', 'u', a, b, c, d] ?_ (by decide)
    change byteLength (['\\', 'u'] ++ [a, b, c, d]) = 6
    rw [byteLength_append, byteLength_of_hexValue4 hv]
    rfl
  | case9 => exact ⟨.over ['\\', 'u'] (.refl _) rfl, by simp, by simp⟩
  | case11 _ _ c =>
    rename_i ih
    exact ih.cons _ _ [c] rfl c.utf8Size_pos

theorem utf8Size_eq_one_of_isDigitIn {base : Nat} {c : Char} (h : isDigitIn base c = true) :
    c.utf8Size = 1 := by
  unfold isDigitIn at h
  split at h
  · next hvalue => exact utf8Size_eq_one_of_hexValue hvalue
  · cases h

theorem before_readDigits (base : Nat) (afterDigit : Bool) (offset : Nat) (cs : List Char) :
    Before ⟨offset, cs⟩ ⟨offset + (readDigits base afterDigit cs).2.1,
      (readDigits base afterDigit cs).1⟩ := by
  induction cs generalizing afterDigit offset with
  | nil => exact .refl _
  | cons c r ih =>
    rw [readDigits.eq_def]
    dsimp only
    split
    · next hc =>
      subst hc
      have := ih false (offset + 1)
      rw [Nat.add_assoc, Nat.add_comm 1] at this
      exact .over_cons this rfl
    split
    · next hdigit =>
      have := ih true (offset + 1)
      rw [Nat.add_assoc, Nat.add_comm 1] at this
      exact .over_cons this (utf8Size_eq_one_of_isDigitIn hdigit)
    · exact .refl _

theorem from_endNumber {n offset : Nat} {cs rest : List Char}
    (h : Before ⟨n, cs⟩ ⟨offset, rest⟩) (start : Nat) (fine : Bool) (more : List Nat) :
    (endNumber start offset rest fine more).From n cs := by
  unfold endNumber
  dsimp only
  split
  · split
    · exact ⟨h, by simp, by simp⟩
    · exact ⟨h, by simp, by simp⟩
  · exact ⟨h, by simp, by simp⟩

theorem from_readExponent {n offset : Nat} {cs rest : List Char}
    (h : Before ⟨n, cs⟩ ⟨offset, rest⟩) (start : Nat) (fine : Bool) :
    (readExponent start offset rest fine).From n cs := by
  have hdigits (taken r : List Char) (hrest : rest = taken ++ r) : Taken.From n cs
      (if (readDigits 10 false r).2.1 = 0 then
        ⟨.broken start, offset + byteLength taken, r, []⟩
      else endNumber start (offset + byteLength taken + (readDigits 10 false r).2.1)
        (readDigits 10 false r).1 (fine && (readDigits 10 false r).2.2)) := by
    subst hrest
    have htaken := h.trans ⟨taken, moved_mk offset taken r⟩
    refine from_ite ⟨htaken, by simp, by simp⟩ (from_endNumber ?_ _ _ _)
    exact htaken.trans (before_readDigits _ _ _ _)
  unfold readExponent
  dsimp only
  split
  · next r =>
    split
    · next r => exact hdigits ['e', '+'] r rfl
    · next r => exact hdigits ['e', '-'] r rfl
    · exact hdigits ['e'] r rfl
  · next r =>
    split
    · next r => exact hdigits ['E', '+'] r rfl
    · next r => exact hdigits ['E', '-'] r rfl
    · exact hdigits ['E'] r rfl
  · exact from_endNumber h _ _ _

theorem from_readBased (base start : Nat) (sign rest : List Char) (hsize : byteLength sign = 2) :
    (readBased base start rest).From start (sign ++ rest) := by
  have hsign : Before ⟨start, sign ++ rest⟩ ⟨start + 2, rest⟩ := .over sign (.refl _) hsize
  have hdigits := hsign.trans (before_readDigits base false (start + 2) rest)
  unfold readBased takeBigSuffix
  dsimp only
  split
  · exact ⟨hsign, by simp, by simp⟩
  · split
    · next r hrest =>
      rw [hrest] at hdigits
      exact from_endNumber (hdigits.trans (.over_cons (.refl _) rfl)) _ _ _
    · exact from_endNumber hdigits _ _ _

theorem from_readDecimal (start : Nat) (cs : List Char) : (readDecimal start cs).From start cs := by
  have hdigits := before_readDigits 10 false start cs
  unfold readDecimal
  dsimp only
  refine from_ite (from_endNumber hdigits _ _ _) ?_
  split
  · next r hrest =>
    rw [hrest] at hdigits
    have hpoint := hdigits.trans (.over_cons (.refl _) rfl)
    exact from_readExponent (hpoint.trans (before_readDigits 10 false _ r)) _ _
  · next r hrest =>
    rw [hrest] at hdigits
    exact from_endNumber (hdigits.trans (.over_cons (.refl _) rfl)) _ _ _
  · exact from_readExponent hdigits _ _

theorem from_readNumber (start : Nat) (cs : List Char) : (readNumber start cs).From start cs := by
  unfold readNumber
  split
  · exact from_readBased 16 start ['0', 'x'] _ rfl
  · exact from_readBased 16 start ['0', 'X'] _ rfl
  · exact from_readBased 8 start ['0', 'o'] _ rfl
  · exact from_readBased 8 start ['0', 'O'] _ rfl
  · exact from_readBased 2 start ['0', 'b'] _ rfl
  · exact from_readBased 2 start ['0', 'B'] _ rfl
  · exact from_readDecimal _ _

theorem from_readString (start : Nat) {quote : Char} (hquote : quote.utf8Size = 1)
    (cs : List Char) : (readString start quote cs).From start (quote :: cs) := by
  have hafter : Before ⟨start, quote :: cs⟩ _ :=
    .over_cons (before_readText hquote false [] [] .plain (start + 1) cs) hquote
  unfold readString
  dsimp only
  split
  · exact ⟨hafter, by simp, by simp⟩
  · exact ⟨hafter, by simp, by simp⟩
  · exact ⟨hafter, by simp, by simp⟩

/-! ### All tokens -/

/-- What is taken ends behind where it starts, a word behind its first character, and a sign just
behind its last one. -/
structure Taken.Reads (offset : Nat) (cs : List Char) (t : Taken) : Prop where
  before : Before ⟨offset, cs⟩ ⟨t.offset, t.rest⟩
  word : ∀ w e, t.lexeme = .word w e → w ≠ "" → offset < t.offset
  sign : ∀ s, t.lexeme = .sign s → Moved ⟨offset, cs⟩ s.toList ⟨t.offset, t.rest⟩

theorem Taken.From.reads {offset : Nat} {cs : List Char} {t : Taken} (h : t.From offset cs) :
    t.Reads offset cs := ⟨h.before, h.word, fun s hs => absurd hs (h.sign s)⟩

theorem Taken.reads_ite {c : Prop} [Decidable c] {offset : Nat} {cs : List Char} {t t' : Taken}
    (h : c → t.Reads offset cs) (h' : t'.Reads offset cs) :
    (if c then t else t').Reads offset cs := by
  split
  · next hc => exact h hc
  · exact h'

/-- All characters of signs are of one byte. -/
theorem byteLength_of_mem_signs {s : String} (h : s ∈ signs) : byteLength s.toList = s.length := by
  have hall : ∀ s ∈ signs, byteLength s.toList = s.length := by decide
  exact hall s h

theorem mem_of_readSign {cs rest : List Char} {s : String} {more : List String}
    (h : readSign cs more = some (s, rest)) : s ∈ more ∧ cs = s.toList ++ rest := by
  induction more with
  | nil => cases h
  | cons sign more ih =>
    rw [readSign] at h
    have hlater (h : readSign cs more = some (s, rest)) :
        s ∈ sign :: more ∧ cs = s.toList ++ rest :=
      ⟨List.mem_cons_of_mem _ (ih h).1, (ih h).2⟩
    split at h
    · next r hstrip =>
      dsimp only at h
      rcases ite_eq_iff.1 h with ⟨-, h⟩ | ⟨-, h⟩
      · exact hlater h
      · obtain ⟨rfl, rfl⟩ := Prod.mk.inj (Option.some.inj h)
        exact ⟨List.mem_cons_self, stripPrefix?_eq_some_iff.1 hstrip⟩
    · exact hlater h

theorem Taken.reads_takeToken (offset : Nat) (cs : List Char) :
    (takeToken offset cs).Reads offset cs := by
  unfold takeToken
  split
  · exact ⟨.refl _, by simp, by simp⟩
  next c r =>
  refine reads_ite (fun _ => (from_readWord _ _ _ _).reads) (reads_ite (fun _ => ?_) ?_)
  · exact (from_readNumber _ _).reads
  refine reads_ite (fun hquote => (from_readString offset ?_ r).reads) ?_
  · rcases (by simpa using hquote : c = '"' ∨ c = '\'') with rfl | rfl
    · rfl
    · rfl
  refine reads_ite (fun hpoint => (from_readExponent ?_ _ _).reads) ?_
  · obtain ⟨hc, -⟩ := Bool.and_eq_true_iff.1 hpoint
    obtain rfl := of_decide_eq_true hc
    exact .over_cons (before_readDigits 10 false (offset + 1) r) rfl
  split
  · next s rest hsign =>
    obtain ⟨hs, hcs⟩ := mem_of_readSign hsign
    have hmoved : Moved ⟨offset, c :: r⟩ s.toList ⟨offset + s.length, rest⟩ :=
      ⟨hcs, by rw [byteLength_of_mem_signs hs]⟩
    refine ⟨⟨_, hmoved⟩, by simp, fun s' hs' => ?_⟩
    obtain rfl := Lexeme.sign.inj hs'
    exact hmoved
  · exact ⟨.over_cons (.refl _) rfl, by simp, by simp⟩

end Script

end SingleFile
