import SingleFile.Proofs.Component.Nesting

/-!
# The loops of the reader

A file is read in loops: over characters with a property (white space among them), up to a pattern,
up to a closing quote, over the content of a block, over the attributes of a tag and over the blocks.
Here each loop is given by its step, on a place in the text and what has been gathered on the way.  A
step moves on (`Advances`), so a loop that starts at a place in a text ends, and all the places that it
comes to are in the text, between two characters (`Loop.exists_ends`).  What the last state holds is what
the readers give: `ends_takeWhile`, `ends_takeUntil`, `ends_quoted`, `ends_content`, `ends_attributes`
and `ends_blocks`, all of them cases of that one argument.
-/

namespace SingleFile

/-- A loop that goes on while it has a step: all its states, and the last one. -/
inductive Loop {σ : Type} (step : σ → Option σ) : σ → List σ → σ → Prop where
  | done {s : σ} (hstep : step s = none) : Loop step s [s] s
  | more {s t last : σ} {states : List σ} (hstep : step s = some t)
      (hrest : Loop step t states last) : Loop step s (s :: states) last

namespace Loop

variable {σ : Type} {step : σ → Option σ} {s last : σ} {states : List σ}

/-- What each step keeps holds all the way. -/
theorem invariant {P : σ → Prop} (h : Loop step s states last)
    (hkeep : ∀ s t, P s → step s = some t → P t) (hs : P s) : ∀ t ∈ states, P t := by
  induction h with
  | done => simpa using hs
  | more hstep _ ih =>
    rw [List.forall_mem_cons]
    exact ⟨hs, ih (hkeep _ _ hs hstep)⟩

theorem last_mem (h : Loop step s states last) : last ∈ states := by
  induction h with
  | done => exact List.mem_singleton_self _
  | more _ _ ih => exact List.mem_cons_of_mem _ ih

end Loop

namespace Cursor

/-- A cursor stands in a text: the text can be cut at its offset, and what it holds is what is left
of the text from there on. -/
def StandsIn (a : Cursor) (text : List Char) : Prop :=
  ∃ before, splitBytes a.offset text = some (before, a.rest)

theorem standsIn_iff {a : Cursor} {text : List Char} : a.StandsIn text ↔ Before ⟨0, text⟩ a := by
  constructor
  · rintro ⟨before, h⟩
    obtain ⟨htext, hoffset⟩ := splitBytes_eq_some_iff.1 h
    exact ⟨before, htext, by rw [hoffset, Nat.zero_add]⟩
  · rintro ⟨before, htext, hoffset⟩
    exact ⟨before, splitBytes_eq_some_iff.2 ⟨htext, by rw [hoffset, Nat.zero_add]⟩⟩

theorem StandsIn.before {a b : Cursor} {text : List Char} (h : a.StandsIn text) (hb : a.Before b) :
    b.StandsIn text := standsIn_iff.2 ((standsIn_iff.1 h).trans hb)

def Advances (a b : Cursor) : Prop := a.Before b ∧ b.rest.length < a.rest.length

theorem advances_of_before {a b c : Cursor} (h : a.Before b) (g : b.Advances c) : a.Advances c :=
  ⟨h.trans g.1, Nat.lt_of_lt_of_le g.2 (Component.length_le_of_before h)⟩

theorem Advances.before {a b c : Cursor} (h : a.Advances b) (g : b.Before c) : a.Advances c :=
  ⟨h.1.trans g, Nat.lt_of_le_of_lt (Component.length_le_of_before g) h.2⟩

theorem advances_next {a : Cursor} (h : a.atEnd = false) : a.Advances a.next :=
  ⟨before_next a, Component.length_next_lt h⟩

theorem Advances.offset_lt {a b : Cursor} (h : a.Advances b) : a.offset < b.offset := by
  obtain ⟨⟨taken, hrest, hoffset⟩, hlength⟩ := h
  cases taken with
  | nil =>
    rw [hrest] at hlength
    exact absurd hlength (Nat.lt_irrefl _)
  | cons c taken =>
    have := c.utf8Size_pos
    rw [byteLength_cons] at hoffset
    omega

theorem advances_of_moved {a b : Cursor} {c : Char} {taken : List Char} (h : a.Moved (c :: taken) b) :
    a.Advances b := by
  refine ⟨⟨_, h⟩, ?_⟩
  rw [h.1, List.length_append, List.length_cons]
  omega

end Cursor

open Cursor

/-- A loop ends in its last state, and all its states are at places in a text. -/
def Loop.Ends {σ : Type} (text : List Char) (place : σ → Cursor) (step : σ → Option σ) (s last : σ) :
    Prop :=
  ∃ states, Loop step s states last ∧ ∀ t ∈ states, (place t).StandsIn text

/-- What holds between a state of a loop and its last one: where there is no step it holds of the
state and itself, and a step moves on and hands it back from the state behind it. -/
def Loop.Carries {σ : Type} (place : σ → Cursor) (step : σ → Option σ) (R : σ → σ → Prop) : Prop :=
  ∀ s, step s = none ∧ R s s ∨
    ∃ t, step s = some t ∧ (place s).Advances (place t) ∧ ∀ last, R t last → R s last

/-- **A loop ends** if each of its steps moves on, and never leaves the text. -/
theorem Loop.exists_ends {σ : Type} {text : List Char} {place : σ → Cursor} {step : σ → Option σ}
    {R : σ → σ → Prop} (hstep : Loop.Carries place step R) (s : σ) (hs : (place s).StandsIn text) :
    ∃ last, Loop.Ends text place step s last ∧ R s last := by
  obtain ⟨n, hn⟩ : ∃ n, (place s).rest.length < n := ⟨_, Nat.lt_succ_self _⟩
  induction n generalizing s with
  | zero => exact absurd hn (Nat.not_lt_zero _)
  | succ n ih =>
    rcases hstep s with ⟨hnone, hlast⟩ | ⟨t, hsome, ⟨hbefore, hlength⟩, hlast⟩
    · exact ⟨s, ⟨[s], .done hnone, by simpa using hs⟩, hlast⟩
    · obtain ⟨last, ⟨states, hloop, hstates⟩, hrelated⟩ := ih t (hs.before hbefore) (by omega)
      refine ⟨last, ⟨s :: states, .more hsome hloop, ?_⟩, hlast last hrelated⟩
      rw [List.forall_mem_cons]
      exact ⟨hs, hstates⟩

namespace Cursor

variable {a : Cursor} {text : List Char}

/-! ### Characters with a property, and up to a pattern -/

def whileStep (p : Char → Bool) (a : Cursor) : Option Cursor :=
  match a.peek? with
  | some c => if p c then some a.next else none
  | none => none

theorem carries_whileStep (p : Char → Bool) :
    Loop.Carries id (whileStep p) fun a last => (a.takeWhile p).2 = last := by
  intro a
  obtain ⟨o, cs⟩ := a
  cases cs with
  | nil => exact .inl ⟨rfl, rfl⟩
  | cons c r =>
    cases hc : p c with
    | false => exact .inl ⟨by simp [whileStep, peek?, hc], by simp [takeWhile, spanWhile, move, hc]⟩
    | true =>
      refine .inr ⟨⟨o + byteLength [c], r⟩, by simp [whileStep, peek?, next, move, hc],
        advances_of_moved (moved_mk o [c] r), fun last hlast => ?_⟩
      rw [← hlast]
      simp [takeWhile, spanWhile, move, hc, Nat.add_assoc]

theorem ends_takeWhile (p : Char → Bool) (h : a.StandsIn text) :
    Loop.Ends text id (whileStep p) a (a.takeWhile p).2 := by
  obtain ⟨last, hends, rfl⟩ := Loop.exists_ends (carries_whileStep p) a h
  exact hends

/-- Moves over a character where a pattern does not stand. -/
def untilStep (pattern : String) (a : Cursor) : Option Cursor :=
  if a.atEnd || a.startsWith pattern then none else some a.next

theorem carries_untilStep (pattern : String) :
    Loop.Carries id (untilStep pattern) fun a last => (a.takeUntil pattern).2 = last := by
  intro a
  obtain ⟨o, cs⟩ := a
  cases cs with
  | nil => exact .inl ⟨rfl, rfl⟩
  | cons c r =>
    cases hc : startsWith ⟨o, c :: r⟩ pattern with
    | true =>
      have hhere : (stripPrefix? pattern.toList (c :: r)).isSome = true := hc
      have hspan : spanUntil pattern.toList (c :: r) = ([], c :: r) := by rw [spanUntil, if_pos hhere]
      exact .inl ⟨by rw [untilStep, hc, Bool.or_true, if_pos rfl], by simp [takeUntil, hspan, move]⟩
    | false =>
      refine .inr ⟨⟨o + byteLength [c], r⟩, ?_, advances_of_moved (moved_mk o [c] r),
        fun last hlast => ?_⟩
      · rw [untilStep, hc]
        rfl
      · have hhere : ¬ (stripPrefix? pattern.toList (c :: r)).isSome = true := Bool.eq_false_iff.1 hc
        have hspan : spanUntil pattern.toList (c :: r) =
            (c :: (spanUntil pattern.toList r).1, (spanUntil pattern.toList r).2) := by
          rw [spanUntil, if_neg hhere]
        rw [← hlast]
        simp [takeUntil, hspan, move, Nat.add_assoc]

theorem ends_takeUntil (pattern : String) (h : a.StandsIn text) :
    Loop.Ends text id (untilStep pattern) a (a.takeUntil pattern).2 := by
  obtain ⟨last, hends, rfl⟩ := Loop.exists_ends (carries_untilStep pattern) a h
  exact hends

/-! ### Up to a closing quote -/

/-- The offset of a cursor that has moved is known from what is left. -/
theorem offset_of_before {b : Cursor} (h : a.Before b) :
    b.offset = a.offset + (byteLength a.rest - byteLength b.rest) := by
  obtain ⟨s, hs, hoffset⟩ := h
  rw [hoffset, hs, byteLength_append, Nat.add_sub_cancel_right]

/-- Moves over a character that is not the closing quote, and with a backslash over the character
behind it. -/
def quotedStep (quote : Char) (a : Cursor) : Option Cursor :=
  match a.peek? with
  | none => none
  | some c => if c = quote then none else if c = '\\' then some a.next.next else some a.next

/-- What stands before the closing quote grows at its front. -/
theorem spanQuoted_of_ne {quote c : Char} (hc : c ≠ quote) {r : List Char} (h : c ≠ '\\' ∨ r = []) :
    Markup.spanQuoted quote (c :: r) =
      (c :: (Markup.spanQuoted quote r).1, (Markup.spanQuoted quote r).2) := by
  rcases h with h | rfl
  · rw [Markup.spanQuoted, if_neg hc]
    exact fun _ _ heq => absurd heq h
  · simp [Markup.spanQuoted, hc]

/-- From inside a value: the value ends where the last step leads, and behind the quote there is what
is left of the text. -/
theorem carries_quotedStep {quote : Char} (hquote : quote ≠ '\\') :
    Loop.Carries id (quotedStep quote) fun a last =>
      a.Moved (Markup.spanQuoted quote a.rest).1 last ∧
        last.next.rest = (Markup.spanQuoted quote a.rest).2 := by
  rintro ⟨o, cs⟩
  have hmore {x r : List Char} {last : Cursor}
      (hspan : Markup.spanQuoted quote (x ++ r) =
        (x ++ (Markup.spanQuoted quote r).1, (Markup.spanQuoted quote r).2))
      (hlast : Moved ⟨o + byteLength x, r⟩ (Markup.spanQuoted quote r).1 last ∧
        last.next.rest = (Markup.spanQuoted quote r).2) :
      Moved ⟨o, x ++ r⟩ (Markup.spanQuoted quote (x ++ r)).1 last ∧
        last.next.rest = (Markup.spanQuoted quote (x ++ r)).2 := by
    rw [hspan]
    exact ⟨(moved_mk o x r).trans hlast.1, hlast.2⟩
  cases cs with
  | nil => exact .inl ⟨rfl, .refl _, rfl⟩
  | cons c r =>
    by_cases hc : c = quote
    · subst hc
      have hspan : Markup.spanQuoted c (c :: r) = ([], r) := by
        rw [Markup.spanQuoted, if_pos rfl]
        exact fun _ _ heq => absurd heq hquote
      exact .inl ⟨by simp [quotedStep, peek?], by rw [hspan]; exact .refl _, by rw [hspan]; rfl⟩
    by_cases hslash : c ≠ '\\' ∨ r = []
    · refine .inr ⟨⟨o + byteLength [c], r⟩, ?_, advances_of_moved (moved_mk o [c] r), fun last =>
        hmore (spanQuoted_of_ne hc hslash)⟩
      rcases hslash with hslash | rfl
      · simp [quotedStep, peek?, next, move, hc, hslash]
      · simp [quotedStep, peek?, next, move, hc]
    · obtain ⟨rfl, hr⟩ := by simpa using hslash
      obtain ⟨d, r, rfl⟩ := List.exists_cons_of_ne_nil hr
      exact .inr ⟨⟨o + byteLength ['\\', d], r⟩,
        by simp [quotedStep, peek?, next, move, hc, Nat.add_assoc],
        advances_of_moved (moved_mk o ['\\', d] r), fun last => hmore rfl⟩

theorem ends_quoted {quote : Char} {r : List Char} (hquote : quote = '"' ∨ quote = '\'')
    (hr : a.rest = quote :: r) (h : a.StandsIn text) :
    ∃ value last, Loop.Ends text id (quotedStep quote) a.next last ∧ a.next.Moved value last ∧
      a.quoted? = some (value, quote, last.next) := by
  have hslash : quote ≠ '\\' := by
    rcases hquote with rfl | rfl <;> decide
  have hnext : a.next = a.move [quote] r := by rw [next, hr]
  obtain ⟨last, hends, hmoved, hrest⟩ :=
    Loop.exists_ends (carries_quotedStep hslash) a.next (h.before (before_next a))
  rw [hnext] at hmoved hrest
  replace hrest : last.next.rest = (Markup.spanQuoted quote r).2 := hrest
  have hbehind := Before.trans ⟨_, (moved_move hr).trans hmoved⟩ (before_next last)
  have hoffset := offset_of_before hbehind
  refine ⟨_, last, hends, by rwa [hnext], ?_⟩
  unfold quoted?
  rw [hr] at hoffset ⊢
  dsimp only
  rw [if_pos hquote, ← hrest, ← hoffset]
  rfl

/-! ### The content of a block -/

def skip (pattern : List Char) (a : Cursor) : Cursor := a.move pattern (a.rest.drop pattern.length)

/-- In the content of a block, moves over a closing tag that closes an element inside, over the start of
an element up to its bracket, or over a character.  The number counts the elements that are open. -/
def contentStep (tag : List Char) : Nat × Cursor → Option (Nat × Cursor)
  | (depth, a) =>
    if a.atEnd then none
    else if Markup.atTag ('<' :: '/' :: tag) a.rest then
      if depth = 0 then none else some (depth - 1, a.skip ('<' :: '/' :: tag))
    else if !Markup.isRawText tag && Markup.atTag ('<' :: tag) a.rest then
      let (inside, b) := (a.skip ('<' :: tag)).takeUntil ">"
      some (if inside.getLast? = some '/' then depth else depth + 1, b)
    else some (depth, a.next)

/-- A pattern that stands here in any case is moved over. -/
theorem moved_skip {pattern : List Char} (h : Markup.atTag pattern a.rest = true) :
    ∃ m, m.length = pattern.length ∧ a.Moved m (a.skip pattern) := by
  obtain ⟨m, rest, hr, hm, -⟩ := Markup.atTag_iff.1 h
  have hl := length_eq_of_map_lowerAscii_eq hm
  refine ⟨m, hl, ?_, ?_⟩
  · rw [skip, hr, ← hl, List.drop_left]
    rfl
  · rw [byteLength_eq_of_map_lowerAscii_eq hm]
    rfl

theorem spanUntil_singleton (x : Char) (cs : List Char) :
    spanUntil [x] cs = (cs.takeWhile (· ≠ x), cs.dropWhile (· ≠ x)) := by
  induction cs with
  | nil => rfl
  | cons c r ih =>
    by_cases hc : c = x
    · simp [spanUntil, stripPrefix?, hc]
    · simp [spanUntil, stripPrefix?, hc, Ne.symm hc, ih]

end Cursor

namespace Markup

variable {tag : List Char} {depth : Nat}

/-- Without a bracket the text ends in the tag. -/
theorem contentFrom_tag_of_not_mem {cs : List Char} (h : '>' ∉ cs) (slash : Bool) :
    contentFrom tag depth (.tag slash) cs = (cs, false, []) := by
  induction cs generalizing slash with
  | nil => rfl
  | cons c r ih =>
    obtain ⟨hc, hr⟩ : '>' ≠ c ∧ '>' ∉ r := by simpa using h
    simp [contentFrom, hc.symm, ih hr]

/-- A tag of which the name has been read is read up to its bracket, or up to the end. -/
theorem contentFrom_inside (rest : List Char) :
    contentFrom tag depth (.tag false) rest =
      prepend (rest.takeWhile (· ≠ '>')) (contentFrom tag
        (if (rest.takeWhile (· ≠ '>')).getLast? = some '/' then depth else depth + 1) .text
        (rest.dropWhile (· ≠ '>'))) := by
  have hinside : '>' ∉ rest.takeWhile (· ≠ '>') := fun h => by simpa using List.mem_takeWhile_imp h
  have hcut := List.takeWhile_append_dropWhile (p := (· ≠ '>')) (l := rest)
  have hhead := List.head?_dropWhile_not (· ≠ '>') rest
  generalize rest.takeWhile (· ≠ '>') = inside at hinside hcut ⊢
  generalize rest.dropWhile (· ≠ '>') = left at hcut hhead ⊢
  subst hcut
  cases left with
  | nil =>
    rw [List.append_nil, contentFrom_tag_of_not_mem hinside]
    simp [contentFrom, prepend]
  | cons c r =>
    obtain rfl : c = '>' := by simpa using hhead
    have hdepth : (if (inside.getLast?.map fun c => decide (c = '/')).getD false then depth
        else depth + 1) = if inside.getLast? = some '/' then depth else depth + 1 := by
      refine if_congr ?_ rfl rfl
      cases inside.getLast? <;> simp
    rw [contentFrom_tag hinside, hdepth, contentFrom_cons _ (atTag_of_ne (by decide))
      (atTag_of_ne (by decide)), prepend_prepend]

theorem contentFrom_closing_tag {m rest : List Char} (hm : m.length = tag.length + 2) (hdepth : depth ≠ 0)
    (h : atTag ('<' :: '/' :: tag) (m ++ rest) = true) :
    contentFrom tag depth .text (m ++ rest) = prepend m (contentFrom tag (depth - 1) .text rest) := by
  obtain ⟨c, m, rfl⟩ := List.exists_cons_of_length_eq_add_one hm
  have hlength : m.length = tag.length + 1 := by simpa using hm
  have hrest : contentFrom tag (depth - 1) (.closing m.length) (m ++ rest) =
      prepend m (contentFrom tag (depth - 1) .text rest) := contentFrom_closing m rest
  rw [hlength] at hrest
  rw [List.cons_append] at h ⊢
  simp [contentFrom, h, hdepth, hrest, prepend]

theorem contentFrom_opening_tag {m rest : List Char} (hm : m.length = tag.length + 1)
    (hclosing : atTag ('<' :: '/' :: tag) (m ++ rest) = false) (hraw : isRawText tag = false)
    (h : atTag ('<' :: tag) (m ++ rest) = true) :
    contentFrom tag depth .text (m ++ rest) = prepend m (contentFrom tag depth (.tag false) rest) := by
  obtain ⟨c, m, rfl⟩ := List.exists_cons_of_length_eq_add_one hm
  have hlength : m.length = tag.length := by simpa using hm
  have hrest : contentFrom tag depth (.opening m.length) (m ++ rest) =
      prepend m (contentFrom tag depth (.tag false) rest) := contentFrom_opening m rest
  rw [hlength] at hrest
  rw [List.cons_append] at h hclosing ⊢
  simp [contentFrom, h, hclosing, hraw, hrest, prepend]

end Markup

namespace Cursor

open Markup

variable {a : Cursor} {text : List Char}

/-- A step over some of the content, which the reader takes too. -/
def ReadsOn (tag : List Char) (depth : Nat) (a : Cursor) : Prop :=
  ∃ next taken, taken ≠ [] ∧ contentStep tag (depth, a) = some next ∧ a.Moved taken next.2 ∧
    contentFrom tag depth .text a.rest = prepend taken (contentFrom tag next.1 .text next.2.rest)

theorem readsOn_closing {tag : List Char} {depth : Nat} (hend : a.atEnd = false) (hdepth : depth ≠ 0)
    (h : atTag ('<' :: '/' :: tag) a.rest = true) : ReadsOn tag depth a := by
  obtain ⟨m, hm, hmoved⟩ := moved_skip h
  have hread : contentFrom tag depth .text a.rest =
      prepend m (contentFrom tag (depth - 1) .text (a.skip ('<' :: '/' :: tag)).rest) := by
    rw [hmoved.1] at h ⊢
    exact contentFrom_closing_tag hm hdepth h
  refine ⟨(depth - 1, a.skip ('<' :: '/' :: tag)), m, fun hnil => ?_, ?_, hmoved, hread⟩
  · rw [hnil] at hm
    cases hm
  · simp only [contentStep, hend, h, hdepth]
    rfl

theorem readsOn_opening {tag : List Char} {depth : Nat} (hend : a.atEnd = false)
    (hclosing : atTag ('<' :: '/' :: tag) a.rest = false) (hraw : isRawText tag = false)
    (h : atTag ('<' :: tag) a.rest = true) : ReadsOn tag depth a := by
  obtain ⟨m, hm, hmoved⟩ := moved_skip h
  have hread : contentFrom tag depth .text a.rest =
      prepend m (contentFrom tag depth (.tag false) (a.skip ('<' :: tag)).rest) := by
    rw [hmoved.1] at h hclosing ⊢
    exact contentFrom_opening_tag hm hclosing hraw h
  have huntil : (a.skip ('<' :: tag)).takeUntil ">" =
      (a.skip ('<' :: tag)).takeWhile (· ≠ '>') := by
    unfold takeUntil takeWhile spanWhile
    rw [show ">".toList = ['>'] from rfl, spanUntil_singleton]
  have hinside := moved_takeWhile (a.skip ('<' :: tag)) (· ≠ '>')
  rw [contentFrom_inside, prepend_prepend] at hread
  refine ⟨(_, ((a.skip ('<' :: tag)).takeWhile (· ≠ '>')).2), _, fun hnil => ?_, ?_,
    hmoved.trans hinside, hread⟩
  · rw [(List.append_eq_nil_iff.1 hnil).1] at hm
    cases hm
  · simp only [contentStep, hend, hclosing, hraw, h, huntil]
    rfl

theorem readsOn_text {tag : List Char} {depth : Nat} (hend : a.atEnd = false)
    (hclosing : atTag ('<' :: '/' :: tag) a.rest = false)
    (hopening : (!isRawText tag && atTag ('<' :: tag) a.rest) = false) : ReadsOn tag depth a := by
  obtain ⟨c, r, hr⟩ : ∃ c r, a.rest = c :: r :=
    List.exists_cons_of_ne_nil fun hr => by simp [atEnd, hr] at hend
  have hnext : a.next = a.move [c] r := by rw [next, hr]
  have hread : contentFrom tag depth .text a.rest = prepend [c] (contentFrom tag depth .text r) := by
    rw [hr] at hclosing hopening ⊢
    simp only [contentFrom, hclosing, hopening]
    rfl
  refine ⟨(depth, a.move [c] r), [c], List.cons_ne_nil c [], ?_, moved_move hr, hread⟩
  simp only [contentStep, hend, hclosing, hopening, hnext]
  rfl

/-- The loop over a content reads what the reader reads: up to where it ends, which is at the closing
tag unless it is at the end of the text. -/
theorem carries_contentStep (tag : List Char) :
    Loop.Carries (·.2) (contentStep tag) fun s last => ∃ taken, s.2.Moved taken last.2 ∧
      contentFrom tag s.1 .text s.2.rest = (taken, !last.2.atEnd, last.2.rest) := by
  rintro ⟨depth, a⟩
  have hmore (h : ReadsOn tag depth a) : ∃ t, contentStep tag (depth, a) = some t ∧ a.Advances t.2 ∧
      ∀ last : Nat × Cursor, (∃ taken, t.2.Moved taken last.2 ∧
          contentFrom tag t.1 .text t.2.rest = (taken, !last.2.atEnd, last.2.rest)) →
        ∃ taken, a.Moved taken last.2 ∧
          contentFrom tag depth .text a.rest = (taken, !last.2.atEnd, last.2.rest) := by
    obtain ⟨next, x, hx, hstep, hnext, hread⟩ := h
    obtain ⟨c, x, rfl⟩ := List.exists_cons_of_ne_nil hx
    refine ⟨next, hstep, advances_of_moved hnext, ?_⟩
    rintro last ⟨taken, hmoved, hlast⟩
    exact ⟨c :: x ++ taken, hnext.trans hmoved, by rw [hread, hlast]; rfl⟩
  cases hend : a.atEnd with
  | true =>
    have hr : a.rest = [] := List.isEmpty_iff.1 hend
    exact .inl ⟨by simp [contentStep, hend], [], .refl a, by simp [hr, contentFrom, hend]⟩
  | false =>
    cases hclosing : atTag ('<' :: '/' :: tag) a.rest with
    | true =>
      by_cases hdepth : depth = 0
      · obtain ⟨c, r, hr⟩ : ∃ c r, a.rest = c :: r :=
          List.exists_cons_of_ne_nil fun hr => by simp [atEnd, hr] at hend
        refine .inl ⟨by simp [contentStep, hend, hclosing, hdepth], [], .refl a, ?_⟩
        rw [hr] at hclosing ⊢
        simp [contentFrom, hclosing, hdepth, hend]
      · exact .inr (hmore (readsOn_closing hend hdepth hclosing))
    | false =>
      right
      cases hopening : !isRawText tag && atTag ('<' :: tag) a.rest with
      | true =>
        obtain ⟨hraw, hopens⟩ := (Bool.and_eq_true_iff.1 hopening)
        exact hmore (readsOn_opening hend hclosing (by simpa using hraw) hopens)
      | false => exact hmore (readsOn_text hend hclosing hopening)

theorem ends_content (tag : List Char) (h : a.StandsIn text) : ∃ depth last,
    Loop.Ends text (·.2) (contentStep tag) (0, a) (depth, last) ∧ a.Moved (a.content tag).1 last ∧
      a.content tag = ((a.content tag).1, !last.atEnd, last) := by
  obtain ⟨⟨depth, last⟩, hends, taken, hmoved, hread⟩ :=
    Loop.exists_ends (carries_contentStep tag) (0, a) h
  have hcontent : a.content tag = (taken, !last.atEnd, last) := by
    unfold Cursor.content Markup.content
    rw [hread]
    refine congrArg (fun c => (taken, !last.atEnd, c)) ?_
    obtain ⟨o, r⟩ := last
    rw [move, ← hmoved.2]
  rw [hcontent]
  exact ⟨depth, last, hends, hmoved, rfl⟩

end Cursor

namespace Component

/-! ### The attributes of a tag -/

/-- Reads an attribute, or moves over a character that does not start one. -/
def attributesStep : List Attribute × Cursor → Option (List Attribute × Cursor)
  | (attributes, a) =>
    let a := a.skipBlank
    if a.startsWith ">" || a.startsWith "/>" || a.atEnd then none
    else
      match a.attributeName? with
      | none => some (attributes, a.next)
      | some (name, a) =>
        match a.skipBlank.consume? "=" with
        | some a =>
          let (value, a) := readAttributeValue a
          some (attributes ++ [⟨String.ofList name, some (String.ofList value)⟩], a)
        | none => some (attributes ++ [⟨String.ofList name, none⟩], a.skipBlank)

theorem advances_name? {first inside : Char → Bool} {a : Cursor} {name rest : List Char}
    (h : Markup.name? first inside a.rest = some (name, rest)) : a.Advances (a.move name rest) := by
  have hcut := Markup.append_of_name? h
  cases hr : a.rest with
  | nil =>
    rw [hr] at h
    cases h
  | cons c r =>
    rw [hr, Markup.name?] at h
    split at h
    · obtain ⟨rfl, rfl⟩ := Prod.mk.inj (Option.some.inj h)
      exact advances_of_moved (moved_move hcut)
    · cases h

theorem advances_tagName? {a b : Cursor} {name : List Char} (h : a.tagName? = some (name, b)) :
    a.Advances b := by
  obtain ⟨⟨x, y⟩, hn, heq⟩ := Option.map_eq_some_iff.1 h
  obtain ⟨rfl, rfl⟩ := Prod.mk.inj heq
  exact advances_name? hn

theorem advances_attributeName? {a b : Cursor} {name : List Char}
    (h : a.attributeName? = some (name, b)) : a.Advances b := by
  obtain ⟨⟨x, y⟩, hn, heq⟩ := Option.map_eq_some_iff.1 h
  obtain ⟨rfl, rfl⟩ := Prod.mk.inj heq
  exact advances_name? hn

/-- A step reads what the reader reads first. -/
theorem attributesStep_cases (attributes : List Attribute) (a : Cursor) :
    (attributesStep (attributes, a) = none ∧
      ∀ fuel, readAttributes (fuel + 1) a = ([], a.skipBlank)) ∨
    ∃ more b, attributesStep (attributes, a) = some (attributes ++ more, b) ∧ a.Advances b ∧
      ∀ fuel, readAttributes (fuel + 1) a =
        (more ++ (readAttributes fuel b).1, (readAttributes fuel b).2) := by
  have hblank := before_skipBlank a
  simp only [attributesStep, readAttributes]
  generalize a.skipBlank = b at hblank ⊢
  by_cases hend : (b.startsWith ">" || b.startsWith "/>" || b.atEnd) = true
  · exact .inl (by simp [hend])
  rw [if_neg hend]
  simp only [if_neg hend]
  right
  cases hname : b.attributeName? with
  | none =>
    have hmove : b.atEnd = false := by
      cases hb : b.atEnd with
      | false => rfl
      | true => simp [hb] at hend
    exact ⟨[], b.next, by simp, advances_of_before hblank (advances_next hmove), fun _ => rfl⟩
  | some named =>
    obtain ⟨name, c⟩ := named
    have hmove := (advances_of_before hblank (advances_attributeName? hname)).before (before_skipBlank c)
    dsimp only
    cases hvalue : c.skipBlank.consume? "=" with
    | none => exact ⟨[_], c.skipBlank, rfl, hmove, fun _ => rfl⟩
    | some d =>
      have hbehind := Before.trans ⟨_, moved_consume? hvalue⟩ (before_readAttributeValue d)
      exact ⟨[_], (readAttributeValue d).2, rfl, hmove.before hbehind, fun _ => rfl⟩

theorem carries_attributesStep :
    Loop.Carries (·.2) attributesStep fun s last => ∃ more, last.1 = s.1 ++ more ∧
      ∀ fuel, s.2.rest.length < fuel → readAttributes fuel s.2 = (more, last.2.skipBlank) := by
  rintro ⟨attributes, a⟩
  rcases attributesStep_cases attributes a with ⟨hstep, hread⟩ | ⟨first, b, hstep, hmove, hread⟩
  · refine .inl ⟨hstep, [], (List.append_nil _).symm, fun fuel hfuel => ?_⟩
    obtain ⟨fuel, rfl⟩ : ∃ n, fuel = n + 1 := ⟨fuel - 1, by omega⟩
    exact hread fuel
  · refine .inr ⟨_, hstep, hmove, ?_⟩
    rintro last ⟨more, hmore, hlast⟩
    refine ⟨first ++ more, by rw [hmore, List.append_assoc], fun fuel hfuel => ?_⟩
    obtain ⟨fuel, rfl⟩ : ∃ n, fuel = n + 1 := ⟨fuel - 1, by omega⟩
    rw [hread, hlast fuel (Nat.lt_of_lt_of_le hmove.2 (Nat.le_of_lt_succ hfuel))]

theorem ends_attributes {a : Cursor} {text : List Char} (h : a.StandsIn text) : ∃ attributes last,
    Loop.Ends text (·.2) attributesStep ([], a) (attributes, last) ∧
      readAttributes (a.rest.length + 1) a = (attributes, last.skipBlank) := by
  obtain ⟨⟨attributes, last⟩, hends, more, rfl, hread⟩ :=
    Loop.exists_ends carries_attributesStep ([], a) h
  exact ⟨_, last, hends, hread _ (Nat.lt_succ_self _)⟩

/-! ### The blocks of a file -/

/-- Moves over a comment, a block, or a character that starts neither. -/
def blockStep (lines : LineIndex) : Component × Cursor → Option (Component × Cursor)
  | (c, a) =>
    let a := a.skipBlank
    if a.atEnd then none
    else
      match a.comment? with
      | some (_, a) => some (c, a)
      | none =>
        if a.startsWith "<" && !a.startsWith "</" then some (c.readBlock lines a)
        else some (c, a.next)

/-- What a step does to a component, and that the reader does the same. -/
theorem blockStep_cases (lines : LineIndex) (c : Component) (a : Cursor) :
    (blockStep lines (c, a) = none ∧ ∀ fuel, readBlocks lines (fuel + 1) c a = c) ∨
    ∃ d b, blockStep lines (c, a) = some (d, b) ∧ a.Advances b ∧
      (d = c ∨ ∃ start, a.Before start ∧ (d, b) = c.readBlock lines start) ∧
      ∀ fuel, readBlocks lines (fuel + 1) c a = readBlocks lines fuel d b := by
  have hblank := before_skipBlank a
  simp only [blockStep, readBlocks]
  generalize a.skipBlank = b at hblank ⊢
  cases hend : b.atEnd with
  | true => exact .inl ⟨rfl, fun _ => rfl⟩
  | false =>
    right
    have hnext := advances_of_before hblank (advances_next hend)
    cases hcomment : b.comment? with
    | some read =>
      obtain ⟨body, d⟩ := read
      have hmove : b.Advances d := ⟨before_comment? hcomment, length_comment?_lt hcomment⟩
      exact ⟨c, d, rfl, advances_of_before hblank hmove, .inl rfl, fun _ => rfl⟩
    | none =>
      cases hopens : b.startsWith "<" && !b.startsWith "</" with
      | true =>
        exact ⟨_, _, rfl, hnext.before (before_readBlock c lines b), .inr ⟨b, hblank, rfl⟩, fun _ => rfl⟩
      | false => exact ⟨c, b.next, rfl, hnext, .inl rfl, fun _ => rfl⟩

theorem carries_blockStep (lines : LineIndex) :
    Loop.Carries (·.2) (blockStep lines) fun s last =>
      ∀ fuel, s.2.rest.length < fuel → readBlocks lines fuel s.1 s.2 = last.1 := by
  rintro ⟨c, a⟩
  rcases blockStep_cases lines c a with ⟨hstep, hread⟩ | ⟨d, b, hstep, hmove, -, hread⟩
  · refine .inl ⟨hstep, fun fuel hfuel => ?_⟩
    obtain ⟨fuel, rfl⟩ : ∃ n, fuel = n + 1 := ⟨fuel - 1, by omega⟩
    exact hread fuel
  · refine .inr ⟨_, hstep, hmove, fun last hlast fuel hfuel => ?_⟩
    obtain ⟨fuel, rfl⟩ : ∃ n, fuel = n + 1 := ⟨fuel - 1, by omega⟩
    rw [hread, hlast fuel (Nat.lt_of_lt_of_le hmove.2 (Nat.le_of_lt_succ hfuel))]

theorem ends_blocks (source filename : String) : ∃ last,
    Loop.Ends source.toList (·.2) (blockStep (.ofText source)) ({ filename, source }, .ofText source)
      (parse source filename, last) := by
  have hstart : (Cursor.ofText source).StandsIn source.toList := standsIn_iff.2 (.refl _)
  obtain ⟨⟨c, last⟩, hends, hread⟩ := Loop.exists_ends (carries_blockStep (.ofText source))
    ({ filename, source }, .ofText source) hstart
  obtain rfl : parse source filename = c := hread _ (Nat.lt_succ_self _)
  exact ⟨last, hends⟩

/-! ### All loops -/

/-- A name is its first character and what a loop moves over behind it. -/
theorem ends_name? {first inside : Char → Bool} {a : Cursor} {text name rest : List Char}
    (hname : Markup.name? first inside a.rest = some (name, rest)) (h : a.StandsIn text) :
    Loop.Ends text id (whileStep inside) a.next (a.move name rest) := by
  have hends := ends_takeWhile inside (h.before (before_next a))
  cases hr : a.rest with
  | nil =>
    rw [hr] at hname
    cases hname
  | cons c r =>
    have hmoved : (a.next.takeWhile inside).2 =
        a.move (c :: r.takeWhile inside) (r.dropWhile inside) := by
      simp [next, hr, Cursor.takeWhile, spanWhile, move, Nat.add_assoc]
    rw [hr, Markup.name?] at hname
    split at hname
    · obtain ⟨rfl, rfl⟩ := Prod.mk.inj (Option.some.inj hname)
      rwa [hmoved] at hends
    · cases hname

/-- Reading never leaves a text: what is compared with a pattern is moved over to a place in the text,
and the loops end, each with what its reader gives, without coming to a place outside. -/
structure ReadsWithin (text : List Char) : Prop where
  next : ∀ a : Cursor, a.StandsIn text → a.next.StandsIn text
  consume : ∀ (a b : Cursor) (pattern : String), a.StandsIn text →
    a.consume? pattern = some b ∨ a.consumeFold? pattern = some b → b.StandsIn text
  characters : ∀ (a : Cursor) (p : Char → Bool), a.StandsIn text →
    Loop.Ends text id (whileStep p) a (a.takeWhile p).2
  pattern : ∀ (a : Cursor) (pattern : String), a.StandsIn text →
    Loop.Ends text id (untilStep pattern) a (a.takeUntil pattern).2
  tagName : ∀ (a b : Cursor) (name : List Char), a.StandsIn text → a.tagName? = some (name, b) →
    Loop.Ends text id (whileStep Markup.inTag) a.next b
  attributeName : ∀ (a b : Cursor) (name : List Char), a.StandsIn text →
    a.attributeName? = some (name, b) → Loop.Ends text id (whileStep Markup.inAttribute) a.next b
  quoted : ∀ (a : Cursor) (quote : Char), a.StandsIn text → a.peek? = some quote →
    quote = '"' ∨ quote = '\'' → ∃ value last, Loop.Ends text id (quotedStep quote) a.next last ∧
      a.next.Moved value last ∧ a.quoted? = some (value, quote, last.next)
  content : ∀ (a : Cursor) (tag : List Char), a.StandsIn text → ∃ depth last,
    Loop.Ends text (·.2) (contentStep tag) (0, a) (depth, last) ∧ a.Moved (a.content tag).1 last ∧
      a.content tag = ((a.content tag).1, !last.atEnd, last)
  attributes : ∀ a : Cursor, a.StandsIn text → ∃ attributes last,
    Loop.Ends text (·.2) attributesStep ([], a) (attributes, last) ∧
      readAttributes (a.rest.length + 1) a = (attributes, last.skipBlank)

theorem readsWithin (text : List Char) : ReadsWithin text where
  next a h := h.before (before_next a)
  consume a b pattern h hb := by
    rcases hb with hb | hb
    · exact h.before ⟨_, moved_consume? hb⟩
    · exact h.before (before_consumeFold? hb)
  characters a p h := ends_takeWhile p h
  pattern a pattern h := ends_takeUntil pattern h
  tagName a b name h hname := by
    obtain ⟨⟨x, y⟩, hn, heq⟩ := Option.map_eq_some_iff.1 hname
    obtain ⟨rfl, rfl⟩ := Prod.mk.inj heq
    exact ends_name? hn h
  attributeName a b name h hname := by
    obtain ⟨⟨x, y⟩, hn, heq⟩ := Option.map_eq_some_iff.1 hname
    obtain ⟨rfl, rfl⟩ := Prod.mk.inj heq
    exact ends_name? hn h
  quoted a quote h hpeek hquote := by
    obtain ⟨r, hr⟩ := List.head?_eq_some_iff.1 hpeek
    exact ends_quoted hquote hr h
  content a tag h := ends_content tag h
  attributes a h := ends_attributes h

end Component

end SingleFile
