import SingleFile.Pattern.Replacement
import SingleFile.Proofs.Text.Search

/-!
# What a replacement stands for

A replacement is read from left to right: a dollar with all the digits behind it is the text of a
group, and every other character stands for itself (`Fills`).  The program first writes it as a
template and then fills the template, in which a dollar alone is written twice and the digits stand in
braces.  So every step of `Fills` is one step of the writing and one of the filling
(`expandFrom_templateFrom`), and the two readings agree (`expand_templateOf_iff`).
-/

namespace SingleFile.Pattern

/-- A replacement, and what it is where a pattern has found something. -/
inductive Fills (found : Captures) : List Char → List Char → Prop
  | done : Fills found [] []
  | plain {c : Char} {r out : List Char} : c ≠ '$' → Fills found r out →
      Fills found (c :: r) (c :: out)
  | dollar {r out : List Char} : (∀ c ∈ r.head?, c.isDigit = false) → Fills found r out →
      Fills found ('$' :: r) ('$' :: out)
  | group {digits r out : List Char} : digits ≠ [] → (∀ c ∈ digits, c.isDigit = true) →
      (∀ c ∈ r.head?, c.isDigit = false) → Fills found r out →
      Fills found ('$' :: (digits ++ r)) (found.group (Nat.ofDigitChars 10 digits 0) ++ out)

variable {found : Captures}

/-! ### Steps of the template -/

section Template

variable {digits r : List Char}

theorem isGroupDigit_eq : isGroupDigit = Char.isDigit := rfl

theorem numberOf_eq (digits : List Char) : numberOf digits = Nat.ofDigitChars 10 digits 0 := rfl

theorem templateFrom_nil (fuel : Nat) : templateFrom fuel [] = [] := by
  cases fuel <;> rfl

theorem templateFrom_plain {c : Char} (hc : c ≠ '$') (fuel : Nat) :
    templateFrom (fuel + 1) (c :: r) = c :: templateFrom fuel r := by
  rw [templateFrom]
  exact fun h => absurd h hc

/-- A dollar without a number is written twice. -/
theorem templateFrom_dollar (hr : ∀ c ∈ r.head?, c.isDigit = false) (fuel : Nat) :
    templateFrom (fuel + 1) ('$' :: r) = '$' :: '$' :: templateFrom fuel r := by
  have hnone : r.takeWhile isGroupDigit = [] := takeWhile_append_of_head (a := []) (by simp) hr
  rw [templateFrom, hnone]

/-- The number of a group is written in braces. -/
theorem templateFrom_group (hne : digits ≠ []) (hd : ∀ c ∈ digits, c.isDigit = true)
    (hr : ∀ c ∈ r.head?, c.isDigit = false) (fuel : Nat) :
    templateFrom (fuel + 1) ('$' :: (digits ++ r)) =
      '$' :: '\x7b' :: (digits ++ '\x7d' :: templateFrom fuel r) := by
  rw [templateFrom, isGroupDigit_eq, takeWhile_append_of_head hd hr, dropWhile_append_of_head hd hr]
  cases digits with
  | nil => exact absurd rfl hne
  | cons c digits => rfl

end Template

/-! ### Steps of the filling -/

section Filling

variable {digits t : List Char}

theorem expandFrom_nil (fuel : Nat) : found.expandFrom fuel [] = [] := by
  cases fuel <;> rfl

theorem expandFrom_plain {c : Char} (hc : c ≠ '$') (fuel : Nat) :
    found.expandFrom (fuel + 1) (c :: t) = c :: found.expandFrom fuel t := by
  rw [Captures.expandFrom]
  · exact fun _ h => absurd h hc
  · exact fun _ h => absurd h hc
  · exact fun h => absurd h hc

theorem expandFrom_dollar (fuel : Nat) :
    found.expandFrom (fuel + 1) ('$' :: '$' :: t) = '$' :: found.expandFrom fuel t := rfl

theorem text_of_digits (hne : digits ≠ []) (hd : ∀ c ∈ digits, c.isDigit = true) :
    found.text digits = found.group (Nat.ofDigitChars 10 digits 0) := by
  have hall : digits.all isGroupDigit = true := List.all_eq_true.2 hd
  have hempty : digits.isEmpty = false := by simpa using hne
  rw [Captures.text, hall, hempty, numberOf_eq]
  rfl

/-- A number in braces is the text of its group. -/
theorem expandFrom_group (hne : digits ≠ []) (hd : ∀ c ∈ digits, c.isDigit = true) (fuel : Nat) :
    found.expandFrom (fuel + 1) ('$' :: '\x7b' :: (digits ++ '\x7d' :: t)) =
      found.group (Nat.ofDigitChars 10 digits 0) ++ found.expandFrom fuel t := by
  have hin : ∀ c ∈ digits, decide (c ≠ '\x7d') = true := by
    intro c hc
    have := hd c hc
    rw [decide_eq_true_eq]
    rintro rfl
    exact absurd this (by decide)
  have hstop : ∀ c ∈ ('\x7d' :: t).head?, decide (c ≠ '\x7d') = false := by
    rintro c ⟨⟩
    decide
  rw [Captures.expandFrom, takeWhile_append_of_head hin hstop, dropWhile_append_of_head hin hstop,
    text_of_digits hne hd]

end Filling

/-! ### Both readings -/

/-- Filling the template of a replacement is reading the replacement, whatever bounds the steps. -/
theorem expandFrom_templateFrom {r out : List Char} (h : Fills found r out) :
    ∀ written filled : Nat, r.length ≤ written → (templateFrom written r).length ≤ filled →
      found.expandFrom filled (templateFrom written r) = out := by
  induction h with
  | done =>
    intro written filled _ _
    rw [templateFrom_nil, expandFrom_nil]
  | plain hc _ ih =>
    intro written filled hw hf
    obtain ⟨written, rfl⟩ := Nat.exists_eq_add_one_of_ne_zero (Nat.ne_zero_of_lt hw)
    rw [templateFrom_plain hc] at hf ⊢
    obtain ⟨filled, rfl⟩ := Nat.exists_eq_add_one_of_ne_zero (Nat.ne_zero_of_lt hf)
    rw [expandFrom_plain hc, ih written filled (Nat.le_of_succ_le_succ hw) (Nat.le_of_succ_le_succ hf)]
  | dollar hr _ ih =>
    intro written filled hw hf
    obtain ⟨written, rfl⟩ := Nat.exists_eq_add_one_of_ne_zero (Nat.ne_zero_of_lt hw)
    rw [templateFrom_dollar hr] at hf ⊢
    obtain ⟨filled, rfl⟩ := Nat.exists_eq_add_one_of_ne_zero (Nat.ne_zero_of_lt hf)
    simp only [List.length_cons] at hw hf
    rw [expandFrom_dollar, ih written filled (by omega) (by omega)]
  | group hne hd hr _ ih =>
    intro written filled hw hf
    obtain ⟨written, rfl⟩ := Nat.exists_eq_add_one_of_ne_zero (Nat.ne_zero_of_lt hw)
    rw [templateFrom_group hne hd hr] at hf ⊢
    obtain ⟨filled, rfl⟩ := Nat.exists_eq_add_one_of_ne_zero (Nat.ne_zero_of_lt hf)
    simp only [List.length_cons, List.length_append] at hw hf
    rw [expandFrom_group hne hd, ih written filled (by omega) (by omega)]

theorem Fills.expand {r out : List Char} (h : Fills found r out) :
    found.expand (templateOf r) = out :=
  expandFrom_templateFrom h r.length _ (Nat.le_refl _) (Nat.le_refl _)

/-- Every text is a replacement. -/
theorem exists_fills (found : Captures) (r : List Char) : ∃ out, Fills found r out := by
  induction hn : r.length using Nat.strongRecOn generalizing r with
  | ind n ih =>
    subst hn
    cases r with
    | nil => exact ⟨[], .done⟩
    | cons c r =>
      by_cases hc : c = '$'
      · subst hc
        -- the number of the group is what stands behind the dollar up to the first other character
        have hsplit := List.takeWhile_append_dropWhile (p := Char.isDigit) (l := r)
        have hstop : ∀ c ∈ (r.dropWhile Char.isDigit).head?, c.isDigit = false := by
          intro c hc
          have := List.head?_dropWhile_not Char.isDigit r
          rwa [Option.mem_def.1 hc] at this
        have hlen := congrArg List.length hsplit
        rw [List.length_append] at hlen
        obtain ⟨out, hout⟩ := ih (r.dropWhile Char.isDigit).length
          (by rw [List.length_cons]; omega) (r.dropWhile Char.isDigit) rfl
        by_cases hne : r.takeWhile Char.isDigit = []
        · rw [hne, List.nil_append] at hsplit
          rw [hsplit] at hstop hout
          exact ⟨_, .dollar hstop hout⟩
        · have hdigits : ∀ c ∈ r.takeWhile Char.isDigit, c.isDigit = true := fun c hc =>
            List.mem_takeWhile_imp hc
          rw [← hsplit]
          exact ⟨_, .group hne hdigits hstop hout⟩
      · obtain ⟨out, hout⟩ := ih r.length (Nat.lt_succ_self _) r rfl
        exact ⟨_, .plain hc hout⟩

/-- A replacement stands for one text. -/
theorem Fills.unique {r out out' : List Char} (h : Fills found r out) (h' : Fills found r out') :
    out = out' := h.expand.symm.trans h'.expand

/-- What the template of a replacement is filled to is what the replacement stands for. -/
theorem expand_templateOf_iff (found : Captures) (r out : List Char) :
    found.expand (templateOf r) = out ↔ Fills found r out := by
  constructor
  · rintro rfl
    obtain ⟨out, hout⟩ := exists_fills found r
    rwa [hout.expand]
  · exact Fills.expand

/-- A number goes as far as there are digits, and braces mean nothing. -/
example : (⟨[(1, ['a']), (12, ['b'])], []⟩ : Captures).expand
    (templateOf "$1x$$12\x7b$1\x7d$".toList) = "ax$b\x7ba\x7d$".toList := by decide

/-! ### References in a text -/

/-- Whether a text refers to a group: a dollar of it has a digit behind it. -/
def Refers (t : List Char) : Prop := ∃ d : Char, d.isDigit = true ∧ ['$', d] <:+: t

theorem Refers.cons {t : List Char} (h : Refers t) (c : Char) : Refers (c :: t) := by
  obtain ⟨d, hd, hi⟩ := h
  exact ⟨d, hd, List.infix_cons hi⟩

theorem refers_cons_cons {d : Char} (hd : d.isDigit = true) (t : List Char) : Refers ('$' :: d :: t) :=
  ⟨d, hd, [], t, rfl⟩

theorem Refers.append_left {t : List Char} (h : Refers t) (a : List Char) : Refers (a ++ t) := by
  obtain ⟨d, hd, hi⟩ := h
  exact ⟨d, hd, hi.trans (List.suffix_append a t).isInfix⟩

theorem Refers.append_right {t : List Char} (h : Refers t) (b : List Char) : Refers (t ++ b) := by
  obtain ⟨d, hd, hi⟩ := h
  exact ⟨d, hd, hi.trans (List.prefix_append t b).isInfix⟩

/-- A reference in a text starts at its first character or later. -/
theorem refers_cons_iff {c : Char} {t : List Char} :
    Refers (c :: t) ↔ (c = '$' ∧ ∃ d ∈ t.head?, d.isDigit = true) ∨ Refers t := by
  constructor
  · rintro ⟨d, hd, hi⟩
    rcases List.infix_cons_iff.1 hi with hp | hi
    · obtain ⟨rfl, r, rfl⟩ := List.cons_prefix_cons.1 hp
      exact .inl ⟨rfl, d, rfl, hd⟩
    · exact .inr ⟨d, hd, hi⟩
  · rintro (⟨rfl, d, hmem, hd⟩ | h)
    · obtain ⟨r, rfl⟩ := List.head?_eq_some_iff.1 hmem
      exact refers_cons_cons hd r
    · exact h.cons c

/-- Where no group has a text, what a text refers to is missing from the result. -/
theorem Fills.length_lt {t out : List Char} (h : Fills found t out)
    (hnone : ∀ n, found.group n = []) :
    out.length ≤ t.length ∧ (Refers t → out.length < t.length) := by
  induction h with
  | done =>
    refine ⟨Nat.le_refl _, ?_⟩
    rintro ⟨d, -, hi⟩
    exact absurd (List.eq_nil_of_infix_nil hi) (by simp)
  | plain hc _ ih =>
    refine ⟨Nat.succ_le_succ ih.1, fun hr => ?_⟩
    rcases refers_cons_iff.1 hr with ⟨heq, -⟩ | hr
    · exact absurd heq hc
    · exact Nat.succ_lt_succ (ih.2 hr)
  | dollar hd _ ih =>
    refine ⟨Nat.succ_le_succ ih.1, fun hr => ?_⟩
    rcases refers_cons_iff.1 hr with ⟨-, d, hmem, hdigit⟩ | hr
    · rw [hd d hmem] at hdigit
      exact absurd hdigit (by decide)
    · exact Nat.succ_lt_succ (ih.2 hr)
  | @group digits r out hne _ _ _ ih =>
    have hlt : (found.group (Nat.ofDigitChars 10 digits 0) ++ out).length <
        ('$' :: (digits ++ r)).length := by
      rw [hnone, List.nil_append, List.length_cons, List.length_append]
      have := ih.1
      omega
    exact ⟨Nat.le_of_lt hlt, fun _ => hlt⟩

theorem not_isDigit_head_append {a b : List Char} (h : ∀ c ∈ a.head?, c.isDigit = false)
    (hb : ∀ c ∈ b.head?, c.isDigit = false) : ∀ c ∈ (a ++ b).head?, c.isDigit = false := by
  cases a with
  | nil => exact hb
  | cons x a => exact h

/-- Two texts are read on their own where no number goes on in the second one. -/
theorem Fills.append {a b x y : List Char} (ha : Fills found a x) (hb : Fills found b y)
    (hhead : ∀ c ∈ b.head?, c.isDigit = false) : Fills found (a ++ b) (x ++ y) := by
  induction ha with
  | done => exact hb
  | plain hc _ ih => exact .plain hc ih
  | dollar hr _ ih => exact .dollar (not_isDigit_head_append hr hhead) ih
  | group hne hd hr _ ih =>
    rw [List.cons_append, List.append_assoc, List.append_assoc]
    exact .group hne hd (not_isDigit_head_append hr hhead) ih

/-- A text that refers to nothing stays in front of any other one, if it does not end with a dollar. -/
theorem Fills.append_plain {a t out : List Char} (hlast : a.getLast? ≠ some '$') (ha : ¬ Refers a)
    (h : Fills found t out) : Fills found (a ++ t) (a ++ out) := by
  induction a with
  | nil => exact h
  | cons c a ih =>
    have ha' : ¬ Refers a := fun hr => ha (hr.cons c)
    cases a with
    | nil => exact .plain (by simpa using hlast) h
    | cons x a =>
      have hx := ih (by simpa using hlast) ha'
      by_cases hc : c = '$'
      · subst hc
        refine .dollar ?_ hx
        rintro d ⟨⟩
        by_contra hd
        exact ha (refers_cons_cons (by simpa using hd) a)
      · exact .plain hc hx

/-- Such a text refers to nothing with what follows either. -/
theorem not_refers_append {a t : List Char} (hlast : a.getLast? ≠ some '$') (ha : ¬ Refers a)
    (ht : ¬ Refers t) : ¬ Refers (a ++ t) := by
  induction a with
  | nil => exact ht
  | cons c a ih =>
    have ha' : ¬ Refers a := fun hr => ha (hr.cons c)
    intro h
    cases a with
    | nil =>
      have hc : c ≠ '$' := by simpa using hlast
      rcases refers_cons_iff.1 h with ⟨heq, -⟩ | h
      · exact hc heq
      · exact ht h
    | cons x a =>
      rcases refers_cons_iff.1 h with ⟨rfl, d, hmem, hd⟩ | h
      · obtain rfl : x = d := by simpa using hmem
        exact ha (refers_cons_cons hd a)
      · exact ih (by simpa using hlast) ha' h

end SingleFile.Pattern
