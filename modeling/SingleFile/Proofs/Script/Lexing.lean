import SingleFile.Json.Writer
import SingleFile.Proofs.Script.StringValue
import SingleFile.Script.Token

/-!
# The tokens of a text that is put together

`Lexes` says with which tokens a text starts, wherever it stands: each is given by what it is and by
whether a line break stands before it, which is all that the grammar asks about on its way.  A text has
no other tokens (`HasTokens.unique`).

Words and signs are read off the text as it stands.  What stands between quotes is one token if nothing
in it is special (`lexes_quoted`), or if it is written as in JSON (`lexes_quote`).
-/

namespace SingleFile.Script

/-- A token as the grammar sees it: what it is, and whether a line break stands before it. -/
abbrev Seen := Lexeme × Bool

/-- A text starts with some tokens. -/
inductive Lexes : List Char → List Seen → Prop
  | done (cs : List Char) : Lexes cs []
  | token {cs rest : List Char} {l : Lexeme} {afterBreak : Bool} {ts : List Seen}
      (h : ∀ offset, ∃ start stop,
        readToken false offset cs = (⟨l, start, stop, afterBreak⟩, rest, []))
      (hrest : Lexes rest ts) : Lexes cs ((l, afterBreak) :: ts)

/-! ### Whole texts -/

/-- A text starts with one token. -/
theorem Lexes.agree {cs : List Char} {t t' : Seen} {ts ts' : List Seen} (h : Lexes cs (t :: ts))
    (h' : Lexes cs (t' :: ts')) : t = t' ∧ ∃ rest, Lexes rest ts ∧ Lexes rest ts' := by
  cases h with
  | token hread hrest =>
    cases h' with
    | token hread' hrest' =>
      obtain ⟨start, stop, hread⟩ := hread 0
      obtain ⟨start', stop', hread'⟩ := hread' 0
      cases hread.symm.trans hread'
      exact ⟨rfl, _, hrest, hrest'⟩

theorem Lexes.of_readToken {cs rest : List Char} {l : Lexeme} {start stop : Nat} {b : Bool} {t : Seen}
    {ts : List Seen} (h : Lexes cs (t :: ts))
    (hread' : readToken false 0 cs = (⟨l, start, stop, b⟩, rest, [])) :
    t = (l, b) ∧ Lexes rest ts := by
  cases h with
  | token hread hrest =>
    obtain ⟨start, stop, hread⟩ := hread 0
    cases hread.symm.trans hread'
    exact ⟨rfl, hrest⟩

/-- The tokens of a whole text, up to its end. -/
structure HasTokens (cs : List Char) (ts : List Seen) : Prop where
  lexes : ∃ b, Lexes cs (ts ++ [(.finish, b)])
  within : ∀ b, (.finish, b) ∉ ts

/-- A text has its tokens and no others. -/
theorem HasTokens.unique {cs : List Char} {ts ts' : List Seen} (h : HasTokens cs ts)
    (h' : HasTokens cs ts') : ts = ts' := by
  induction ts generalizing cs ts' with
  | nil =>
    obtain ⟨b, hlexes⟩ := h.lexes
    obtain ⟨b', hlexes'⟩ := h'.lexes
    cases ts' with
    | nil => rfl
    | cons t' ts' =>
      obtain ⟨rfl, -⟩ := hlexes.agree hlexes'
      exact absurd List.mem_cons_self (h'.within b)
  | cons t ts ih =>
    obtain ⟨b, hlexes⟩ := h.lexes
    obtain ⟨b', hlexes'⟩ := h'.lexes
    cases ts' with
    | nil =>
      obtain ⟨rfl, -⟩ := hlexes.agree hlexes'
      exact absurd List.mem_cons_self (h.within b')
    | cons t' ts' =>
      obtain ⟨rfl, rest, hrest, hrest'⟩ := hlexes.agree hlexes'
      rw [ih ⟨⟨b, hrest⟩, fun b => mt (List.mem_cons_of_mem t) (h.within b)⟩
        ⟨⟨b', hrest'⟩, fun b => mt (List.mem_cons_of_mem t) (h'.within b)⟩]

/-- The first token of a text that does not end there. -/
theorem HasTokens.exists_cons {cs rest : List Char} {l : Lexeme} {b : Bool} {ts : List Seen}
    (h : HasTokens cs ts)
    (hread : ∀ offset, ∃ start stop, readToken false offset cs = (⟨l, start, stop, b⟩, rest, []))
    (hl : l ≠ .finish) : ∃ ts', ts = (l, b) :: ts' ∧ HasTokens rest ts' := by
  obtain ⟨start, stop, hread⟩ := hread 0
  obtain ⟨b', hlexes⟩ := h.lexes
  cases ts with
  | nil => exact absurd (Prod.mk.inj (hlexes.of_readToken hread).1).1.symm hl
  | cons t ts =>
    obtain ⟨rfl, hrest⟩ := hlexes.of_readToken hread
    exact ⟨ts, rfl, ⟨b', hrest⟩, fun b => mt (List.mem_cons_of_mem _) (h.within b)⟩

/-! ### Strings -/

/-- Characters that are read one by one, without any escape. -/
theorem readText_plain {close : Char} {cs : List Char}
    (hcs : ∀ c ∈ cs, c ≠ close ∧ c ≠ '\\' ∧ c ≠ '\n' ∧ c ≠ '\r') (offset : Nat) (rest : List Char) :
    ∃ stop, readText close false [] [] .plain offset (cs ++ rest) =
      readText close false [] [] .plain stop rest := by
  induction cs generalizing offset with
  | nil => exact ⟨offset, rfl⟩
  | cons c cs ih =>
    obtain ⟨hclose, hescape, hfeed, hreturn⟩ := hcs c List.mem_cons_self
    obtain ⟨stop, hstop⟩ := ih (fun d hd => hcs d (List.mem_cons_of_mem c hd)) (offset + c.utf8Size)
    refine ⟨stop, ?_⟩
    rw [List.cons_append, readText, InText.next?]
    simp only [hclose, hescape, hfeed, hreturn, if_false, Bool.not_false, Bool.true_and,
      Bool.false_and, Bool.false_eq_true, InText.unfinished, List.append_nil, decide_false,
      Bool.or_self]
    exact hstop

theorem readText_backslash {close : Char} (hclose : close ≠ '\\') (offset : Nat) (r : List Char) :
    readText close false [] [] .plain offset ('\\' :: r) =
      readText close false [] [] (.escape offset) (offset + 1) r := by
  rw [readText, InText.next?]
  simp only [hclose.symm, if_false, if_true, Bool.not_false, Bool.true_and, Bool.false_and,
    Bool.false_eq_true, InText.unfinished, List.append_nil]
  rfl

/-- A character that belongs to an escape. -/
theorem readText_inside {close c : Char} {state next : InText} {r : List Char}
    (hnext : state.next? c = some next) (hoctal : state.octal c r = []) (offset : Nat) :
    readText close false [] [] state offset (c :: r) =
      readText close false [] [] next (offset + c.utf8Size) r := by
  rw [readText, hnext]
  dsimp only
  rw [hoctal, List.append_nil]

/-- An escape that is one character behind the backslash. -/
theorem readText_letter {close c : Char} (hclose : close ≠ '\\') (hc : c ∈ "\"\\nrtbf".toList)
    (offset : Nat) (rest : List Char) :
    ∃ stop, readText close false [] [] .plain offset ('\\' :: c :: rest) =
      readText close false [] [] .plain stop rest := by
  have hletter : InText.next? c (.escape offset) = some .plain ∧
      InText.octal c rest (.escape offset) = [] := by
    have hletters : "\"\\nrtbf".toList = ['"', '\\', 'n', 'r', 't', 'b', 'f'] := by decide
    rw [hletters] at hc
    simp only [List.mem_cons, List.not_mem_nil, or_false] at hc
    rcases hc with rfl | rfl | rfl | rfl | rfl | rfl | rfl <;> exact ⟨rfl, rfl⟩
  exact ⟨_, (readText_backslash hclose offset _).trans
    (readText_inside hletter.1 hletter.2 (offset + 1))⟩

theorem isSome_hexValue_hexDigit : ∀ n < 16, (Json.hexValue (Json.hexDigit n)).isSome = true := by
  decide

/-- An escape of a control character by its number. -/
theorem readText_number {close x y : Char} (hclose : close ≠ '\\')
    (hx : (Json.hexValue x).isSome = true) (hy : (Json.hexValue y).isSome = true) (offset : Nat)
    (rest : List Char) :
    ∃ stop, readText close false [] [] .plain offset ('\\' :: 'u' :: '0' :: '0' :: x :: y :: rest) =
      readText close false [] [] .plain stop rest := by
  have hone : InText.next? x (.digits offset 1) = some (.digits offset 0) := if_pos hx
  have hzero : InText.next? y (.digits offset 0) = some .plain := if_pos hy
  have hoctal (more : Nat) (c : Char) (r : List Char) : InText.octal c r (.digits offset more) = [] :=
    rfl
  refine ⟨offset + 1 + 1 + 1 + 1 + x.utf8Size + y.utf8Size, ?_⟩
  calc readText close false [] [] .plain offset ('\\' :: 'u' :: '0' :: '0' :: x :: y :: rest)
      = readText close false [] [] (.escape offset) (offset + 1) ('u' :: '0' :: '0' :: x :: y :: rest) :=
        readText_backslash hclose offset _
    _ = readText close false [] [] (.unicode offset) (offset + 1 + 1) ('0' :: '0' :: x :: y :: rest) :=
        readText_inside rfl rfl _
    _ = readText close false [] [] (.digits offset 2) (offset + 1 + 1 + 1) ('0' :: x :: y :: rest) :=
        readText_inside rfl rfl _
    _ = readText close false [] [] (.digits offset 1) (offset + 1 + 1 + 1 + 1) (x :: y :: rest) :=
        readText_inside rfl rfl _
    _ = readText close false [] [] (.digits offset 0) (offset + 1 + 1 + 1 + 1 + x.utf8Size)
          (y :: rest) := readText_inside hone (hoctal 1 x _) _
    _ = _ := readText_inside hzero (hoctal 0 y _) _

/-- A character as it is written in JSON. -/
theorem readText_escapeChar (c : Char) (offset : Nat) (rest : List Char) :
    ∃ stop, readText '"' false [] [] .plain offset (Json.escapeChar c ++ rest) =
      readText '"' false [] [] .plain stop rest := by
  unfold Json.escapeChar
  have hclose : '"' ≠ '\\' := by decide
  split_ifs with h₁ h₂ h₃ h₄ h₅ h₆ h₇ h₈
  any_goals
    refine readText_letter hclose ?_ offset rest
    decide
  · exact readText_number hclose (isSome_hexValue_hexDigit (c.toNat / 16) (by omega))
      (isSome_hexValue_hexDigit (c.toNat % 16) (by omega)) offset rest
  · have hplain : ∀ d ∈ [c], d ≠ '"' ∧ d ≠ '\\' ∧ d ≠ '\n' ∧ d ≠ '\r' := by
      intro d hd
      obtain rfl := List.mem_singleton.1 hd
      exact ⟨h₁, h₂, h₃, h₄⟩
    exact readText_plain hplain offset rest

theorem readText_escaped (cs : List Char) (offset : Nat) (rest : List Char) :
    ∃ stop, readText '"' false [] [] .plain offset (cs.flatMap Json.escapeChar ++ rest) =
      readText '"' false [] [] .plain stop rest := by
  induction cs generalizing offset with
  | nil => exact ⟨offset, rfl⟩
  | cons c cs ih =>
    obtain ⟨stop, hstop⟩ := readText_escapeChar c offset (cs.flatMap Json.escapeChar ++ rest)
    obtain ⟨stop', hstop'⟩ := ih stop
    exact ⟨stop', by rw [List.flatMap_cons, List.append_assoc, hstop, hstop']⟩

/-- A string whose text is read up to the quote that closes it. -/
theorem lexes_string {quote : Char} {body rest : List Char} {ts : List Seen}
    (hquote : quote = '\'' ∨ quote = '"')
    (h : ∀ offset, ∃ stop, readText quote false [] [] .plain offset (body ++ quote :: rest) =
      readText quote false [] [] .plain stop (quote :: rest)) (hrest : Lexes rest ts) :
    Lexes (quote :: (body ++ quote :: rest))
      ((.string (String.ofList (quote :: (body ++ [quote]))), false) :: ts) := by
  refine .token (fun offset => ?_) hrest
  obtain ⟨stop, hstop⟩ := h (offset + 1)
  refine ⟨offset, stop + 1, ?_⟩
  have hclosed : readText quote false [] [] .plain stop (quote :: rest) =
      ⟨.closed, stop + 1, rest, [], []⟩ := by
    rw [readText, InText.next?]
    dsimp only
    rw [if_pos rfl]
    rfl
  have htaken : (body ++ quote :: rest).take ((body ++ quote :: rest).length - rest.length) =
      body ++ [quote] := by
    have hcut : body ++ quote :: rest = (body ++ [quote]) ++ rest := by simp
    rw [hcut, List.length_append, Nat.add_sub_cancel, List.take_left]
  have hstring : readString offset quote (body ++ quote :: rest) =
      ⟨.string (String.ofList (quote :: (body ++ [quote]))), stop + 1, rest, []⟩ := by
    rw [readString, hstop, hclosed]
    dsimp only
    rw [htaken]
  have htoken : takeToken offset (quote :: (body ++ quote :: rest)) =
      readString offset quote (body ++ quote :: rest) := by
    rcases hquote with rfl | rfl <;> rfl
  have hgap : skipGap .space false offset (quote :: (body ++ quote :: rest)) =
      ⟨false, offset, quote :: (body ++ quote :: rest), []⟩ := by
    rcases hquote with rfl | rfl <;> rfl
  rw [readToken, hgap]
  dsimp only
  rw [htoken, hstring]
  rfl

/-- A text between single quotes in which nothing is special. -/
theorem lexes_quoted {body rest : List Char} {ts : List Seen} (h : PlainText body)
    (hrest : Lexes rest ts) : Lexes ('\'' :: (body ++ '\'' :: rest))
      ((.string (String.ofList ('\'' :: (body ++ ['\'']))), false) :: ts) :=
  lexes_string (.inl rfl) (fun offset => readText_plain h offset _) hrest

/-- A string of JSON. -/
theorem lexes_quote {cs rest : List Char} {ts : List Seen} (hrest : Lexes rest ts) :
    Lexes (Json.quote cs ++ rest) ((.string (String.ofList (Json.quote cs)), false) :: ts) := by
  have htext : Json.quote cs ++ rest = '"' :: (cs.flatMap Json.escapeChar ++ '"' :: rest) := by
    simp [Json.quote]
  rw [htext]
  exact lexes_string (.inr rfl) (fun offset => readText_escaped cs offset _) hrest

/-- A literal at the front of a text is the front of that text. -/
theorem Lexes.exists_take {cs : List Char} {raw : String} {b : Bool} {ts : List Seen}
    (h : Lexes ('\'' :: cs) ((.string raw, b) :: ts)) : ∃ n, raw.toList = '\'' :: cs.take n := by
  cases h with
  | token hread _ =>
    obtain ⟨start, stop, hread⟩ := hread 0
    have hstring : (readString 0 '\'' cs).lexeme = .string raw := congrArg (·.1.lexeme) hread
    unfold readString at hstring
    dsimp only at hstring
    split at hstring
    · cases hstring
    · cases hstring
      exact ⟨_, String.toList_ofList⟩
    · cases hstring
      exact ⟨_, String.toList_ofList⟩

end SingleFile.Script
