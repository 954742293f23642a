import SingleFile.Proofs.Script.Exported
import SingleFile.Proofs.Script.Words

/-!
# Export clauses of one name

A clause that exports one name as the default, written with single blanks, is read as such: its first
token is the keyword, and the tokens behind it are those that its text is made of, whatever identifier
stands in it (`exports_of_clauseText`).
-/

namespace SingleFile.Script

open Cursor

/-! ### Tokens behind a blank -/

def gapNumbers : List Nat :=
  [9, 10, 11, 12, 13, 0x20, 0xA0, 0x1680, 0x2000, 0x2001, 0x2002, 0x2003, 0x2004, 0x2005, 0x2006,
   0x2007, 0x2008, 0x2009, 0x200A, 0x2028, 0x2029, 0x202F, 0x205F, 0x3000, 0xFEFF]

theorem toNat_mem_gapNumbers {c : Char} (h : (isGap c || endsLine c) = true) :
    c.toNat ∈ gapNumbers := by
  unfold isGap endsLine at h
  simp only [Bool.or_eq_true, Bool.and_eq_true, decide_eq_true_eq] at h
  rcases h with hgap | ((rfl | rfl) | hline) | hline
  · simp only [gapNumbers, List.mem_cons]
    omega
  · decide
  · decide
  · simp [gapNumbers, hline]
  · simp [gapNumbers, hline]

/-- A word starts with no gap and no comment. -/
theorem not_gap_of_startsWord {c : Char} (h : (startsName c || c = '\\') = true) :
    endsLine c = false ∧ isGap c = false ∧ c ≠ '/' ∧ c ≠ '<' := by
  have hgaps : gapNumbers.all (fun n => !(startsName (Char.ofNat n) || Char.ofNat n = '\\')) =
      true := by decide +kernel
  have hgap : (isGap c || endsLine c) = false := by
    refine Bool.eq_false_iff.2 fun hgap => ?_
    have hc := List.all_eq_true.1 hgaps _ (toNat_mem_gapNumbers hgap)
    rw [Char.ofNat_toNat, h] at hc
    cases hc
  have hslash : (startsName '/' || '/' = '\\') = false := by decide +kernel
  have hless : (startsName '<' || '<' = '\\') = false := by decide +kernel
  rw [Bool.or_eq_false_iff] at hgap
  refine ⟨hgap.2, hgap.1, ?_, ?_⟩
  · rintro rfl
    rw [hslash] at h
    cases h
  · rintro rfl
    rw [hless] at h
    cases h

/-- There is no gap in front of a word. -/
theorem skipGap_of_startsWord {c : Char} (h : (startsName c || c = '\\') = true) (offset : Nat)
    (r : List Char) : skipGap .space false offset (c :: r) = ⟨false, offset, c :: r, []⟩ := by
  obtain ⟨hline, hgap, hslash, hless⟩ := not_gap_of_startsWord h
  rw [skipGap, hline, hgap]
  · rfl
  all_goals simp_all

namespace Place

variable {a : Place}

/-- A word behind a blank is the next token. -/
theorem next_word {x behind : List Char} {offset stop : Nat} {w : String} {e : Bool}
    (hrest : a.rest = ' ' :: (x ++ behind)) (hx : takeToken offset x = ⟨.word w e, stop, [], []⟩)
    (hends : EndsWord behind) : a.next.rest = behind ∧
      a.next.token = ⟨.word w e, a.token.stop + 1, a.token.stop + 1 + byteLength x, false⟩ := by
  have htaken := (takeToken_append_of_word hx).2 (a.token.stop + 1) behind hends
  have hgap : skipGap .space false a.token.stop a.rest =
      ⟨false, a.token.stop + 1, x ++ behind, []⟩ := by
    rw [hrest]
    show skipGap .space false (a.token.stop + 1) (x ++ behind) = _
    cases x with
    | nil => cases hx
    | cons c r =>
      refine skipGap_of_startsWord ?_ (a.token.stop + 1) (r ++ behind)
      by_contra hstarts
      exact noWord_takeToken hstarts offset r w e (by rw [hx])
  unfold next read readToken
  dsimp only
  rw [hgap]
  dsimp only
  rw [htaken]
  exact ⟨rfl, rfl⟩

/-- So is a brace. -/
theorem next_brace {r : List Char} {brace : Char} (hbrace : brace = '\x7b' ∨ brace = '\x7d')
    (hrest : a.rest = ' ' :: brace :: r) : a.next.rest = r ∧
      a.next.token = ⟨.sign (String.singleton brace), a.token.stop + 1, a.token.stop + 2, false⟩ := by
  unfold next
  rw [hrest]
  rcases hbrace with rfl | rfl <;> exact ⟨rfl, rfl⟩

end Place

theorem endsWord_blank (r : List Char) : EndsWord (' ' :: r) := by
  intro c hc
  obtain rfl : ' ' = c := Option.some.inj hc
  decide +kernel

/-! ### The clause -/

theorem Place.ClauseName.eq_of_word {a : Place} {span : Span} {w : String} {e : Bool}
    (h : a.ClauseName span) (hword : a.token.lexeme = .word w e) :
    span = ⟨a.token.start, a.token.stop⟩ := by
  rcases h with ⟨n, hn, rfl⟩ | ⟨⟨raw, hstring⟩, -⟩
  · exact hn.2
  · rw [hword] at hstring
    cases hstring

/-- Two words with `as` between them, up to the closing brace, are one name under another one. -/
theorem Specifiers.eq_renamed {bs : List ExportBinding} {a b : Place} {w w' : String} {e e' : Bool}
    (h : Specifiers bs a b) (hword : a.token.lexeme = .word w e) (has : a.next.Keyword "as")
    (hother : a.next.next.token.lexeme = .word w' e') (hclose : a.next.next.next.At "\x7d") :
    bs = [.named ⟨a.token.start, a.token.stop⟩
      (some ⟨a.next.next.token.start, a.next.next.token.stop⟩)] := by
  have hrenamed {b : ExportBinding} {c : Place} (h : Specifier b a c) :
      b = .named ⟨a.token.start, a.token.stop⟩
        (some ⟨a.next.next.token.start, a.next.next.token.stop⟩) ∧ c = a.next.next.next := by
    cases h with
    | own name plain => exact absurd has plain
    | renamed name keyword other =>
      rw [name.eq_of_word hword, other.eq_of_word hother]
      exact ⟨rfl, rfl⟩
  cases h with
  | nil closes =>
    rw [Place.At, hword] at closes
    cases closes
  | last part closes => rw [(hrenamed part).1]
  | more part comma behind =>
    rw [(hrenamed part).2, Place.At, hclose] at comma
    exact absurd (Lexeme.sign.inj comma) (by decide)

def clauseBody (name after : List Char) : List Char :=
  ' ' :: '\x7b' :: ' ' :: (name ++
    ' ' :: ("as".toList ++ ' ' :: ("default".toList ++ ' ' :: '\x7d' :: after)))

/-- What stands behind the keyword of a clause: the brace, the name, the words behind it, and the
other brace. -/
theorem Place.next_of_clauseBody {a : Place} {name after : List Char} {offset stop : Nat} {w : String}
    {e : Bool} (hrest : a.rest = clauseBody name after)
    (hname : takeToken offset name = ⟨.word w e, stop, [], []⟩) :
    a.next.next.token =
      ⟨.word w e, a.token.stop + 3, a.token.stop + 3 + byteLength name, false⟩ ∧
    a.next.next.next.Keyword "as" ∧
    a.next.next.next.next.token = ⟨.word "default" false, a.token.stop + 3 + byteLength name + 4,
      a.token.stop + 3 + byteLength name + 11, false⟩ ∧
    a.next.next.next.next.next.At "\x7d" := by
  have has : takeToken 0 "as".toList = ⟨.word "as" false, 2, [], []⟩ := rfl
  have hdefault : takeToken 0 "default".toList = ⟨.word "default" false, 7, [], []⟩ := rfl
  obtain ⟨hrest, hopening⟩ := next_brace (.inl rfl) hrest
  obtain ⟨hrest, hfirst⟩ := next_word hrest hname (endsWord_blank _)
  obtain ⟨hrest, hkeyword⟩ := next_word hrest has (endsWord_blank _)
  obtain ⟨hrest, hother⟩ := next_word hrest hdefault (endsWord_blank _)
  obtain ⟨-, hclosing⟩ := next_brace (.inr rfl) hrest
  refine ⟨?_, ?_, ?_, ?_⟩
  · rw [hfirst, hopening]
  · rw [Keyword, hkeyword]
  · rw [hother, hkeyword, hfirst, hopening]
    rfl
  · rw [At, hclosing]
    rfl

/-- Where a word of the script is read, the text behind it is left. -/
theorem Place.StandsIn.rest_of_word {script before x behind : List Char} {a : Place}
    (h : a.StandsIn script) (hscript : script = before ++ (x ++ behind))
    (hstart : byteLength before = a.token.start) {offset stop : Nat} {w : String} {e : Bool}
    (hx : takeToken offset x = ⟨.word w e, stop, [], []⟩) (hends : EndsWord behind) :
    a.rest = behind ∧ a.token.stop = a.token.start + byteLength x := by
  obtain ⟨front, problems, ⟨y, hy, hsize⟩, htaken⟩ := h
  have hfront : front = x ++ behind := by
    have hthere := splitBytes_eq_some_iff.2 ⟨hy, (hsize.trans (Nat.zero_add _)).symm⟩
    have hhere := splitBytes_eq_some_iff.2 ⟨hscript, hstart⟩
    exact (Prod.mk.inj (Option.some.inj (hthere.symm.trans hhere))).2
  rw [hfront, (takeToken_append_of_word hx).2 _ _ hends] at htaken
  exact ⟨(congrArg Taken.rest htaken).symm, (congrArg Taken.offset htaken).symm⟩

/-- The text of a span is the one that stands there. -/
theorem textAt_eq {script x y : List Char} {text : String} {s : Span}
    (h : script = x ++ text.toList ++ y) (hstart : byteLength x = s.start)
    (hstop : s.start + byteLength text.toList = s.stop) : textAt script s = text := by
  rw [textAt, Span.text?_eq_some h hstart hstop, Option.getD_some, String.ofList_toList]

/-- **A clause of one name** that is written with single blanks exports this name as the default. -/
theorem exports_of_clauseText {source : String} {items : List Item} (hparse : parse source = .ok items)
    {span : Span} {bindings : List ExportBinding} (hitem : .exportNamed span bindings none ∈ items)
    {name : String} (hname : Identifier name) {before after : List Char}
    (hsource : source.toList = before ++ ("export".toList ++ clauseBody name.toList after))
    (hstart : byteLength before = span.start) :
    (Item.exportNamed span bindings none).exports source.toList =
      [⟨"default", .binding name⟩] := by
  obtain ⟨offset, w, e, hword⟩ := hname
  have hexport : takeToken 0 "export".toList = ⟨.word "export" false, 6, [], []⟩ := rfl
  cases found_of_parse hparse _ hitem with
  | @exported _ a stands keyword starts =>
    cases starts with
    | exportNamed hspan lists =>
      cases lists with
      | clause opens parts behind =>
        obtain ⟨hrest, hstop⟩ := stands.rest_of_word hsource (hstart.trans hspan.symm) hexport
          (endsWord_blank _)
        obtain ⟨hfirst, has, hother, hcloses⟩ := Place.next_of_clauseBody hrest hword
        obtain rfl := parts.eq_renamed (congrArg Token.lexeme hfirst) has
          (congrArg Token.lexeme hother) hcloses
        rw [hfirst, hother]
        have hsizes : byteLength "export".toList = 6 ∧ byteLength "export \x7b ".toList = 9 ∧
            byteLength " as ".toList = 4 ∧ byteLength "default".toList = 7 := ⟨rfl, rfl, rfl, rfl⟩
        refine congrArg₂ (fun outer inner => [Export.mk outer (.binding inner)]) ?_ ?_
        · refine textAt_eq (x := before ++ ("export \x7b ".toList ++ (name.toList ++ " as ".toList)))
            (y := " \x7d".toList ++ after) ?_ ?_ ?_
          · simp [hsource, clauseBody]
          · simp only [byteLength_append, Option.getD_some]
            omega
          · simp only [Option.getD_some]
            omega
        · refine textAt_eq (x := before ++ "export \x7b ".toList)
            (y := " as default \x7d".toList ++ after) ?_ ?_ rfl
          · simp [hsource, clauseBody]
          · simp only [byteLength_append]
            omega

end SingleFile.Script
