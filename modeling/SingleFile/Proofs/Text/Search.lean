import Mathlib.Data.List.Infix
import Mathlib.Data.List.TakeWhile
import SingleFile.Proofs.Text.Position
import SingleFile.Text.Search

/-!
# What searching finds

`stripPrefix?_eq_some_iff`, `splitFirst?_eq_none_iff` and `splitLast?_eq_none_iff` say what the
searches find in terms of prefixes and infixes, `length_le_of_splitFirst?` that the first occurrence
is found first and `length_le_of_splitLast?` that the last one is found last.  A pattern that crosses
no line break is found on one side of it (`infix_or_infix_of_infix_append_cons`), and the last
occurrence behind it if there is one there (`splitLast?_append_right`, `splitLast?_append_cons`).
Replacing a mark is described by what it does to a text without it and to one that starts with it
(`replaceAll_append`, `replaceAll_append_self`).  The last section is about the lines of a text.
-/

namespace SingleFile

section Prefix

variable {α : Type} [BEq α] [LawfulBEq α]

@[simp] theorem stripPrefix?_append (p r : List α) : stripPrefix? p (p ++ r) = some r := by
  induction p with
  | nil => rfl
  | cons a p ih => simp [stripPrefix?, ih]

theorem stripPrefix?_eq_none {p cs : List α} (h : ¬ p <+: cs) : stripPrefix? p cs = none := by
  induction p generalizing cs with
  | nil => exact absurd List.nil_prefix h
  | cons a p ih =>
    cases cs with
    | nil => rfl
    | cons c r =>
      by_cases hc : a = c
      · subst hc
        simp only [stripPrefix?, beq_self_eq_true, if_true]
        exact ih fun hp => h (List.prefix_cons_inj a |>.2 hp)
      · simp [stripPrefix?, hc]

end Prefix

/-! ### The front of a list -/

section Front

variable {α : Type} {p : α → Bool} {a b c d : List α}

/-- What is taken goes as far as the property holds. -/
theorem takeWhile_append_of_head (ha : ∀ x ∈ a, p x = true) (hb : ∀ x ∈ b.head?, p x = false) :
    (a ++ b).takeWhile p = a := by
  rw [List.takeWhile_append_of_pos ha]
  cases b with
  | nil => simp
  | cons x r => simp [hb x rfl]

theorem dropWhile_append_of_head (ha : ∀ x ∈ a, p x = true) (hb : ∀ x ∈ b.head?, p x = false) :
    (a ++ b).dropWhile p = b := by
  rw [List.dropWhile_append_of_pos ha]
  cases b with
  | nil => rfl
  | cons x r => simp [hb x rfl]

/-- A text is cut in one way where the property stops to hold. -/
theorem append_inj_of_head (ha : ∀ x ∈ a, p x = true) (hb : ∀ x ∈ b.head?, p x = false)
    (hc : ∀ x ∈ c, p x = true) (hd : ∀ x ∈ d.head?, p x = false) (h : a ++ b = c ++ d) :
    a = c ∧ b = d := by
  constructor
  · rw [← takeWhile_append_of_head ha hb, h, takeWhile_append_of_head hc hd]
  · rw [← dropWhile_append_of_head ha hb, h, dropWhile_append_of_head hc hd]

end Front

theorem stripPrefix?_eq_some_iff {p cs rest : List Char} :
    stripPrefix? p cs = some rest ↔ cs = p ++ rest := by
  constructor
  · exact eq_append_of_stripPrefix?
  · rintro rfl
    exact stripPrefix?_append p rest

theorem isSome_stripPrefix?_iff {p cs : List Char} : (stripPrefix? p cs).isSome ↔ p <+: cs := by
  constructor
  · intro h
    obtain ⟨rest, hr⟩ := Option.isSome_iff_exists.1 h
    exact ⟨rest, (eq_append_of_stripPrefix? hr).symm⟩
  · rintro ⟨rest, rfl⟩
    simp

/-- In any ASCII case: what stands in front differs from the pattern in case only. -/
theorem stripPrefixFold?_eq_some_iff {p cs rest : List Char} :
    stripPrefixFold? p cs = some rest ↔
      ∃ a, cs = a ++ rest ∧ a.map lowerAscii = p.map lowerAscii := by
  unfold stripPrefixFold?
  rw [ite_eq_iff, isSome_stripPrefix?_iff]
  constructor
  · rintro (⟨hp, heq⟩ | ⟨-, heq⟩)
    · obtain rfl : cs.drop p.length = rest := by simpa using heq
      refine ⟨cs.take p.length, (List.take_append_drop _ _).symm, ?_⟩
      refine (List.IsPrefix.eq_of_length_le hp ?_).symm
      rw [List.length_map, List.length_map]
      exact List.length_take_le _ _
    · exact absurd heq (by simp)
  · rintro ⟨a, rfl, ha⟩
    have hl : p.length = a.length := by simpa using (congrArg List.length ha).symm
    refine .inl ⟨?_, ?_⟩
    · rw [hl, List.take_left, ha]
    · rw [hl, List.drop_left]

theorem length_eq_of_map_lowerAscii_eq {a b : List Char}
    (h : a.map lowerAscii = b.map lowerAscii) : a.length = b.length := by
  simpa using congrArg List.length h

/-! ### First and last occurrences -/

theorem splitFirst?_eq_none_iff {p cs : List Char} : splitFirst? p cs = none ↔ ¬ p <:+: cs := by
  induction cs with
  | nil => cases p <;> simp [splitFirst?]
  | cons c r ih =>
    rw [splitFirst?, List.infix_cons_iff]
    cases hs : stripPrefix? p (c :: r) with
    | some rest =>
      have hp : p <+: c :: r := isSome_stripPrefix?_iff.1 (by rw [hs]; rfl)
      simp [hp]
    | none =>
      have hp : ¬ p <+: c :: r := fun hp => by
        have := isSome_stripPrefix?_iff.2 hp
        rw [hs] at this
        exact absurd this (by simp)
      simp only [Option.map_eq_none_iff, ih, hp, false_or]

theorem isSome_splitFirst?_iff {p cs : List Char} : (splitFirst? p cs).isSome ↔ p <:+: cs := by
  rw [← not_iff_not, ← splitFirst?_eq_none_iff, Option.not_isSome_iff_eq_none]

theorem splitLast?_eq_none_iff {p cs : List Char} : splitLast? p cs = none ↔ ¬ p <:+: cs := by
  induction cs with
  | nil => cases p <;> simp [splitLast?]
  | cons c r ih =>
    rw [splitLast?, List.infix_cons_iff]
    cases hs : splitLast? p r with
    | some ab =>
      have hr : p <:+: r := by
        by_contra hn
        rw [ih.2 hn] at hs
        exact absurd hs (by simp)
      simp [hr]
    | none =>
      have hr : ¬ p <:+: r := ih.1 hs
      simp only [Option.map_eq_none_iff, hr, or_false]
      constructor
      · intro hn hp
        have := isSome_stripPrefix?_iff.2 hp
        rw [hn] at this
        exact absurd this (by simp)
      · exact stripPrefix?_eq_none

/-- No occurrence comes before the one that a split finds first. -/
theorem length_le_of_splitFirst? {p cs a b u v : List Char} (h : splitFirst? p cs = some (a, b))
    (huv : cs = u ++ p ++ v) : a.length ≤ u.length := by
  induction cs generalizing a u with
  | nil =>
    have := splitFirst_eq h
    simp_all
  | cons c r ih =>
    rw [splitFirst?] at h
    cases hs : stripPrefix? p (c :: r) with
    | some rest =>
      rw [hs] at h
      obtain ⟨rfl, -⟩ : a = [] ∧ b = rest := by simpa [eq_comm] using h
      exact Nat.zero_le _
    | none =>
      rw [hs] at h
      obtain ⟨⟨a', b'⟩, h', heq⟩ := Option.map_eq_some_iff.1 h
      obtain ⟨rfl, rfl⟩ : a = c :: a' ∧ b = b' := by simpa [eq_comm] using heq
      cases u with
      | nil =>
        rw [huv, List.nil_append, stripPrefix?_append] at hs
        exact absurd hs (by simp)
      | cons d u =>
        obtain ⟨-, hr⟩ := List.cons.inj huv
        exact Nat.succ_le_succ (ih h' hr)

/-- No occurrence comes behind the one that a split finds last. -/
theorem length_le_of_splitLast? {p cs a b u v : List Char} (h : splitLast? p cs = some (a, b))
    (huv : cs = u ++ p ++ v) : u.length ≤ a.length := by
  induction cs generalizing a u with
  | nil =>
    have := splitLast_eq h
    simp_all
  | cons c r ih =>
    cases u with
    | nil => exact Nat.zero_le _
    | cons d u =>
      obtain ⟨-, hr⟩ := List.cons.inj huv
      rw [splitLast?] at h
      cases hs : splitLast? p r with
      | some cut =>
        obtain ⟨a', b'⟩ := cut
        rw [hs] at h
        obtain ⟨rfl, rfl⟩ : c :: a' = a ∧ b' = b := by simpa using h
        exact Nat.succ_le_succ (ih hs hr)
      | none => exact absurd ⟨u, v, hr.symm⟩ (splitLast?_eq_none_iff.1 hs)

/-! ### Occurrences across a seam -/

/-- If the second of two texts has an occurrence, the last one is there. -/
theorem splitLast?_append_right {p b : List Char} (h : p <:+: b) (a : List Char) :
    splitLast? p (a ++ b) = (splitLast? p b).map fun cut => (a ++ cut.1, cut.2) := by
  obtain ⟨cut, hcut⟩ : ∃ cut, splitLast? p b = some cut :=
    Option.ne_none_iff_exists'.1 fun hn => splitLast?_eq_none_iff.1 hn h
  induction a with
  | nil => simp
  | cons c a ih =>
    rw [hcut, Option.map_some] at ih ⊢
    rw [List.cons_append, splitLast?, ih]
    rfl

/-- Whether a pattern stands in front is decided before a character that it does not have. -/
theorem stripPrefix?_append_cons {p : List Char} {x : Char} (hx : x ∉ p) (a b : List Char) :
    stripPrefix? p (a ++ x :: b) = (stripPrefix? p a).map (· ++ x :: b) := by
  induction p generalizing a with
  | nil => rfl
  | cons c p ih =>
    have hc : c ≠ x := fun hc => hx (hc ▸ List.mem_cons_self)
    have hp : x ∉ p := fun hp => hx (List.mem_cons_of_mem c hp)
    cases a with
    | nil => simp [stripPrefix?, hc]
    | cons d a =>
      rw [List.cons_append, stripPrefix?, stripPrefix?, ih hp]
      split <;> rfl

/-- A pattern without some character stands on one side of it. -/
theorem infix_or_infix_of_infix_append_cons {p a b : List Char} {x : Char} (hx : x ∉ p)
    (h : p <:+: a ++ x :: b) : p <:+: a ∨ p <:+: b := by
  induction a with
  | nil =>
    rcases List.infix_cons_iff.1 h with hp | hb
    · cases p with
      | nil => exact .inl (List.infix_refl _)
      | cons c t =>
        obtain ⟨rfl, -⟩ := List.cons_prefix_cons.1 hp
        exact absurd List.mem_cons_self hx
    · exact .inr hb
  | cons c a ih =>
    rcases List.infix_cons_iff.1 h with hp | hi
    · left
      obtain ⟨t, ht⟩ : ∃ t, p ++ t = (c :: a) ++ x :: b := hp
      rcases List.append_eq_append_iff.1 ht with ⟨m, hm, -⟩ | ⟨m, hm, hr⟩
      · exact ⟨[], m, by rw [hm, List.nil_append]⟩
      · cases m with
        | nil => exact ⟨[], [], by simp [hm]⟩
        | cons y m =>
          obtain ⟨rfl, -⟩ := List.cons.inj hr
          exact absurd (by rw [hm]; simp) hx
    · rcases ih hi with ha | hb
      · exact .inl (List.infix_cons ha)
      · exact .inr hb

/-- If the part behind a character that the pattern does not have is without an occurrence, the last
one is in front of it. -/
theorem splitLast?_append_cons {p b : List Char} {x : Char} (hne : p ≠ []) (hx : x ∉ p)
    (hb : ¬ p <:+: b) (a : List Char) :
    splitLast? p (a ++ x :: b) = (splitLast? p a).map fun cut => (cut.1, cut.2 ++ x :: b) := by
  induction a with
  | nil =>
    have hnone : ¬ p <:+: [] ++ x :: b := fun h =>
      (infix_or_infix_of_infix_append_cons hx h).elim (fun h => hne (List.eq_nil_of_infix_nil h)) hb
    rw [splitLast?_eq_none_iff.2 hnone, splitLast?_eq_none_iff.2 fun h => hne (List.eq_nil_of_infix_nil h)]
    rfl
  | cons c a ih =>
    have hstrip := stripPrefix?_append_cons hx (c :: a) b
    rw [List.cons_append] at hstrip ⊢
    rw [splitLast?, splitLast?, ih, hstrip]
    cases splitLast? p a with
    | some cut => rfl
    | none => cases stripPrefix? p (c :: a) <;> rfl

/-- An occurrence starts behind a text without the first character of the pattern. -/
theorem infix_of_infix_append_of_head {c : Char} {t a b : List Char} (ha : c ∉ a)
    (h : c :: t <:+: a ++ b) : c :: t <:+: b := by
  induction a with
  | nil => exact h
  | cons d a ih =>
    rcases List.infix_cons_iff.1 h with hp | hi
    · obtain ⟨rfl, -⟩ := List.cons_prefix_cons.1 hp
      exact absurd List.mem_cons_self ha
    · exact ih (fun hc => ha (List.mem_cons_of_mem d hc)) hi

/-- An occurrence ends before a text without the last character of the pattern. -/
theorem infix_of_infix_append_of_last {c : Char} {t a b : List Char} (hb : c ∉ b)
    (h : t ++ [c] <:+: a ++ b) : t ++ [c] <:+: a := by
  have hr := List.reverse_infix.2 h
  rw [List.reverse_append, List.reverse_append, List.reverse_singleton, List.singleton_append] at hr
  have := infix_of_infix_append_of_head (by simpa using hb) hr
  rw [← List.reverse_infix]
  simpa using this

/-! ### Replacing -/

section Replacing

variable {c : Char} {t a : List Char}

/-- A pattern whose first character does not occur again starts nowhere before the text it stands
in front of. -/
theorem not_prefix_append (hc : c ∉ t) (hne : a ≠ []) (ha : ¬ c :: t <+: a) (r : List Char) :
    ¬ c :: t <+: a ++ (c :: t ++ r) := by
  rintro ⟨rest, heq⟩
  rcases List.append_eq_append_iff.1 heq with ⟨m, hm, -⟩ | ⟨m, hm, hr⟩
  · exact ha ⟨m, hm.symm⟩
  · cases m with
    | nil => exact ha ⟨[], by simpa using hm⟩
    | cons d m =>
      obtain ⟨x, a, rfl⟩ := List.exists_cons_of_ne_nil hne
      obtain ⟨rfl, -⟩ := List.cons.inj hr
      obtain ⟨-, rfl⟩ := List.cons.inj hm
      exact hc (by simp)

/-- Such a pattern is found first where nothing in front of it has it. -/
theorem splitFirst?_append (hc : c ∉ t) (ha : ¬ c :: t <:+: a) (r : List Char) :
    splitFirst? (c :: t) (a ++ (c :: t ++ r)) = some (a, r) := by
  induction a with
  | nil =>
    have hstrip := stripPrefix?_append (c :: t) r
    rw [List.cons_append] at hstrip
    rw [List.nil_append, List.cons_append, splitFirst?, hstrip]
  | cons x a ih =>
    have hp : ¬ c :: t <+: x :: a := fun h => ha h.isInfix
    have hnone := stripPrefix?_eq_none (not_prefix_append hc (by simp) hp r)
    rw [List.cons_append] at hnone ⊢
    rw [splitFirst?, hnone, ih fun h => ha (List.infix_cons h)]
    rfl

theorem replaceFrom_drop (p w : List Char) (n : Nat) (cs : List Char) :
    replaceFrom p w n cs = replaceFrom p w 0 (cs.drop n) := by
  induction cs generalizing n with
  | nil => simp [replaceFrom]
  | cons x r ih =>
    cases n with
    | zero => rfl
    | succ n => rw [replaceFrom, ih, List.drop_succ_cons]

theorem replaceAll_cons_of_none {p : List Char} {x : Char} {r : List Char}
    (h : ¬ p <+: x :: r) (w : List Char) : replaceAll p w (x :: r) = x :: replaceAll p w r := by
  unfold replaceAll
  rw [replaceFrom, stripPrefix?_eq_none h]
  rfl

theorem replaceAll_append_self (c : Char) (t w r : List Char) :
    replaceAll (c :: t) w (c :: t ++ r) = w ++ replaceAll (c :: t) w r := by
  have hstrip := stripPrefix?_append (c :: t) r
  rw [List.cons_append] at hstrip
  unfold replaceAll
  rw [List.cons_append, replaceFrom, hstrip, replaceFrom_drop]
  simp

theorem replaceAll_eq_self {p : List Char} (h : ¬ p <:+: a) (w : List Char) :
    replaceAll p w a = a := by
  induction a with
  | nil => rfl
  | cons x a ih =>
    rw [replaceAll_cons_of_none (fun hp => h hp.isInfix), ih fun hi => h (List.infix_cons hi)]

/-- What stands before the first occurrence stays. -/
theorem replaceAll_append (hc : c ∉ t) (ha : ¬ c :: t <:+: a) (w r : List Char) :
    replaceAll (c :: t) w (a ++ (c :: t ++ r)) = a ++ (w ++ replaceAll (c :: t) w r) := by
  induction a with
  | nil => exact replaceAll_append_self c t w r
  | cons x a ih =>
    have hp : ¬ c :: t <+: x :: a := fun h => ha h.isInfix
    have hnot := not_prefix_append hc (by simp) hp r
    rw [List.cons_append] at hnot ⊢
    rw [replaceAll_cons_of_none hnot, ih fun h => ha (List.infix_cons h)]
    rfl

end Replacing

/-! ### Pieces between separators -/

theorem splitAt_ne_nil (sep : Char) (cs : List Char) : splitAt sep cs ≠ [] := by
  cases cs with
  | nil => simp [splitAt]
  | cons c r =>
    unfold splitAt
    split
    · simp
    · split <;> simp

/-- Text without separators goes to the first piece of what follows it. -/
theorem splitAt_append {sep : Char} {a b h : List Char} {t : List (List Char)} (ha : sep ∉ a)
    (hb : splitAt sep b = h :: t) : splitAt sep (a ++ b) = (a ++ h) :: t := by
  induction a with
  | nil => exact hb
  | cons c r ih =>
    have hc : c ≠ sep := fun hc => ha (by simp [hc])
    have hr : sep ∉ r := fun hx => ha (by simp [hx])
    rw [List.cons_append, splitAt, if_neg hc, ih hr]
    rfl

theorem splitAt_of_notMem {sep : Char} {a : List Char} (ha : sep ∉ a) : splitAt sep a = [a] := by
  have := splitAt_append ha (b := []) (h := []) (t := []) rfl
  simpa using this

theorem splitAt_cons_sep (sep : Char) (b : List Char) :
    splitAt sep (sep :: b) = [] :: splitAt sep b := by
  rw [splitAt, if_pos rfl]

theorem splitAt_append_sep (sep : Char) (a b : List Char) :
    splitAt sep (a ++ sep :: b) = splitAt sep a ++ splitAt sep b := by
  induction a with
  | nil => exact splitAt_cons_sep sep b
  | cons c r ih =>
    by_cases hc : c = sep
    · rw [hc, List.cons_append, splitAt_cons_sep, ih, splitAt_cons_sep, List.cons_append]
    · obtain ⟨h, t, hr⟩ := List.exists_cons_of_ne_nil (splitAt_ne_nil sep r)
      rw [List.cons_append, splitAt, splitAt, if_neg hc, if_neg hc, ih, hr]
      rfl

theorem notMem_of_mem_splitAt {sep : Char} {cs piece : List Char} (h : piece ∈ splitAt sep cs) :
    sep ∉ piece := by
  induction cs generalizing piece with
  | nil =>
    obtain rfl := List.mem_singleton.1 h
    exact List.not_mem_nil
  | cons c r ih =>
    rw [splitAt] at h
    split at h
    · rcases List.mem_cons.1 h with rfl | h
      · exact List.not_mem_nil
      · exact ih h
    · next hc =>
      obtain ⟨first, more, hr⟩ := List.exists_cons_of_ne_nil (splitAt_ne_nil sep r)
      rw [hr] at h ih
      rcases List.mem_cons.1 h with rfl | h
      · rw [List.mem_cons, not_or]
        exact ⟨fun heq => hc heq.symm, ih List.mem_cons_self⟩
      · exact ih (List.mem_cons_of_mem first h)

theorem splitAt_replicate_append (sep : Char) (n : Nat) (b : List Char) :
    splitAt sep (List.replicate n sep ++ b) = List.replicate n [] ++ splitAt sep b := by
  induction n with
  | zero => rfl
  | succ n ih =>
    rw [List.replicate_succ, List.cons_append, splitAt_cons_sep, ih, List.replicate_succ,
      List.cons_append]

/-! ### Lines -/

theorem lastLine_of_breaks_eq_zero {cs : List Char} (h : breaks cs = 0) : lastLine cs = cs := by
  cases cs with
  | nil => rfl
  | cons c r =>
    have hc : c ≠ '\n' := fun hc => by simp [breaks, hc] at h
    have hr : breaks r = 0 := by simpa [breaks, hc] using h
    rw [lastLine, if_pos hr, if_neg hc]

theorem after_origin (a : List Char) :
    Position.origin.after a = ⟨breaks a, units (lastLine a)⟩ := by
  unfold Position.after
  split
  · next h => simp [lastLine_of_breaks_eq_zero h, h]
  · simp

/-- Text without a line break goes on with the last line. -/
theorem lastLine_append {a b : List Char} (h : breaks b = 0) :
    lastLine (a ++ b) = lastLine a ++ b := by
  induction a with
  | nil => exact lastLine_of_breaks_eq_zero h
  | cons c r ih =>
    rw [List.cons_append, lastLine, lastLine, breaks_append, h, Nat.add_zero, ih]
    split
    · split <;> rfl
    · rfl

/-- A text is its finished lines, and then its last line. -/
theorem exists_eq_append_lastLine (a : List Char) :
    ∃ b, a = b ++ lastLine a ∧ breaks b = breaks a ∧ lastLine b = [] ∧ '\n' ∉ lastLine a := by
  induction a with
  | nil => exact ⟨[], rfl, rfl, rfl, List.not_mem_nil⟩
  | cons c r ih =>
    obtain ⟨b, hb, hn, hl, hm⟩ := ih
    by_cases hr : breaks r = 0
    · have hr' : '\n' ∉ r := breaks_eq_zero_iff.1 hr
      by_cases hc : c = '\n'
      · refine ⟨[c], ?_, ?_, ?_, ?_⟩
        · simp [lastLine, hr, hc]
        · simp [breaks, hr, hc]
        · simp [lastLine, breaks, hc]
        · simpa [lastLine, hr, hc] using hr'
      · refine ⟨[], ?_, ?_, rfl, ?_⟩
        · simp [lastLine, hr, hc]
        · simp [breaks, hr, hc]
        · simpa [lastLine, hr, hc, Ne.symm hc] using hr'
    · have hll : lastLine (c :: r) = lastLine r := by rw [lastLine, if_neg hr]
      refine ⟨c :: b, ?_, ?_, ?_, ?_⟩
      · rw [hll, List.cons_append, ← hb]
      · rw [breaks, breaks, hn]
      · rw [lastLine, if_neg (by omega), hl]
      · rwa [hll]

/-- The lines of a text are its pieces between line breaks. -/
theorem getElem?_splitAt_of_eq {cs pre line post : List Char} (h : cs = pre ++ line ++ post)
    (hpre : lastLine pre = []) (hline : '\n' ∉ line) (hpost : post = [] ∨ ∃ t, post = '\n' :: t) :
    (splitAt '\n' cs)[breaks pre]? = some line := by
  subst h
  induction pre with
  | nil =>
    rcases hpost with rfl | ⟨t, rfl⟩
    · simp [breaks, splitAt_of_notMem hline]
    · rw [List.nil_append, splitAt_append hline (splitAt_cons_sep _ t)]
      simp [breaks]
  | cons c r ih =>
    by_cases hr : breaks r = 0
    · have hc : c = '\n' := by
        by_contra hc
        simp [lastLine, hr, hc] at hpre
      obtain rfl : r = [] := by simpa [lastLine, hr, hc] using hpre
      subst hc
      have := ih rfl
      simpa [breaks, splitAt_cons_sep] using this
    · have := ih (by rwa [lastLine, if_neg hr] at hpre)
      rw [List.cons_append, List.cons_append, breaks, splitAt]
      by_cases hc : c = '\n'
      · rw [if_pos hc, if_pos hc, List.getElem?_cons_succ, this]
      · rw [if_neg hc, if_neg hc]
        cases hs : splitAt '\n' (r ++ line ++ post) with
        | nil => exact absurd hs (splitAt_ne_nil _ _)
        | cons p ps =>
          rw [hs] at this
          obtain ⟨n, hn⟩ := Nat.exists_eq_succ_of_ne_zero hr
          rw [hn, List.getElem?_cons_succ] at this
          rw [hn, List.getElem?_cons_succ, this]

theorem exists_of_getElem?_splitAt {cs line : List Char} {row : Nat}
    (h : (splitAt '\n' cs)[row]? = some line) :
    ∃ pre post, cs = pre ++ line ++ post ∧ breaks pre = row ∧ lastLine pre = [] ∧ '\n' ∉ line ∧
      (post = [] ∨ ∃ t, post = '\n' :: t) := by
  induction cs generalizing row line with
  | nil =>
    cases row with
    | zero =>
      obtain rfl : [] = line := by simpa [splitAt] using h
      exact ⟨[], [], rfl, rfl, rfl, List.not_mem_nil, .inl rfl⟩
    | succ n => simp [splitAt] at h
  | cons c r ih =>
    rw [splitAt] at h
    by_cases hc : c = '\n'
    · subst hc
      rw [if_pos rfl] at h
      cases row with
      | zero =>
        obtain rfl : [] = line := by simpa using h
        exact ⟨[], '\n' :: r, rfl, rfl, rfl, List.not_mem_nil, .inr ⟨r, rfl⟩⟩
      | succ n =>
        obtain ⟨pre, post, rfl, rfl, hl, hm, hp⟩ := ih h
        refine ⟨'\n' :: pre, post, rfl, rfl, ?_, hm, hp⟩
        by_cases hb : breaks pre = 0
        · rw [lastLine_of_breaks_eq_zero hb] at hl
          simp [lastLine, hl]
        · rw [lastLine, if_neg hb, hl]
    · rw [if_neg hc] at h
      cases hs : splitAt '\n' r with
      | nil => exact absurd hs (splitAt_ne_nil _ _)
      | cons p ps =>
        rw [hs] at h
        cases row with
        | zero =>
          obtain rfl : c :: p = line := by simpa using h
          have hfirst : (splitAt '\n' r)[0]? = some p := by rw [hs]; rfl
          obtain ⟨pre, post, hr, hb, hl, hm, hp⟩ := ih hfirst
          obtain rfl : pre = [] := by rw [← lastLine_of_breaks_eq_zero hb, hl]
          refine ⟨[], post, by rw [hr]; simp, rfl, rfl, ?_, hp⟩
          simp [hm, Ne.symm hc]
        | succ n =>
          have hlater : (splitAt '\n' r)[n + 1]? = some line := by rw [hs]; simpa using h
          obtain ⟨pre, post, hr, hb, hl, hm, hp⟩ := ih hlater
          refine ⟨c :: pre, post, by rw [hr]; simp, ?_, ?_, hm, hp⟩
          · rw [breaks, if_neg hc, hb]
          · rw [lastLine, if_neg (by omega), hl]

/-- The line on which a character stands. -/
theorem getElem?_splitAt_breaks {a b : List Char} {c : Char} (hc : c ≠ '\n') :
    (splitAt '\n' (a ++ c :: b))[breaks a]? =
      some (lastLine a ++ c :: b.takeWhile (· ≠ '\n')) := by
  obtain ⟨pre, ha, hn, hl, hm⟩ := exists_eq_append_lastLine a
  rw [← hn]
  have hsplit : a ++ c :: b =
      pre ++ (lastLine a ++ c :: b.takeWhile (· ≠ '\n')) ++ b.dropWhile (· ≠ '\n') := by
    rw [List.append_assoc, List.append_assoc, List.cons_append, List.takeWhile_append_dropWhile,
      ← List.append_assoc, ← ha]
  refine getElem?_splitAt_of_eq hsplit hl ?_ ?_
  · rw [List.mem_append, List.mem_cons]
    rintro (h | h | h)
    · exact hm h
    · exact hc h.symm
    · simpa using List.mem_takeWhile_imp h
  · cases hd : b.dropWhile (· ≠ '\n') with
    | nil => exact .inl rfl
    | cons x t =>
      have := List.head?_dropWhile_not (· ≠ '\n') b
      rw [hd] at this
      exact .inr ⟨t, by rw [show x = '\n' by simpa using this]⟩

end SingleFile
