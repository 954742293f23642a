import SingleFile.Text.Position
import SingleFile.Text.Span

/-!
# Positions of characters

Positions are in reading order, and a text moves a position forward (`lt_after_cons`).  So the
characters of a text have different positions: `eq_of_after_eq` says that the position of a
character tells what stands before it.  `line_after` counts lines by line breaks.
-/

namespace SingleFile

/-! ### Sizes of texts -/

theorem one_le_units (c : Char) : 1 ≤ Char.units c := by
  unfold Char.units
  split <;> omega

theorem units_append (a b : List Char) : units (a ++ b) = units a + units b := by
  induction a with
  | nil => simp [units]
  | cons c r ih => rw [List.cons_append, units, units, ih, Nat.add_assoc]

theorem breaks_append (a b : List Char) : breaks (a ++ b) = breaks a + breaks b := by
  induction a with
  | nil => simp [breaks]
  | cons c r ih =>
    rw [List.cons_append, breaks, breaks, ih]
    split <;> omega

theorem breaks_eq_zero_iff {cs : List Char} : breaks cs = 0 ↔ '\n' ∉ cs := by
  induction cs with
  | nil => simp [breaks]
  | cons c r ih =>
    by_cases hc : c = '\n'
    · simp [breaks, hc]
    · simp [breaks, hc, ih, Ne.symm hc]

/-- A character takes no more UTF-16 units than bytes. -/
theorem units_le_utf8Size (c : Char) : Char.units c ≤ c.utf8Size := by
  have h := c.utf8Size_pos
  unfold Char.units
  split
  · omega
  · rename_i hc
    have hv : ¬ c.val ≤ 0xFFFF := fun hle => hc (by
      have := UInt32.le_iff_toNat_le.mp hle
      exact Nat.lt_succ_of_le this)
    unfold Char.utf8Size
    dsimp only
    split
    · next hle => exact absurd (UInt32.le_trans hle (by decide)) hv
    · split
      · next hle => exact absurd (UInt32.le_trans hle (by decide)) hv
      · split
        · next hle => exact absurd hle hv
        · omega

theorem units_le_byteLength (cs : List Char) : units cs ≤ byteLength cs := by
  induction cs with
  | nil => exact Nat.le_refl 0
  | cons c r ih =>
    rw [units, byteLength_cons]
    have := units_le_utf8Size c
    omega

theorem breaks_le_byteLength (cs : List Char) : breaks cs ≤ byteLength cs := by
  induction cs with
  | nil => exact Nat.le_refl 0
  | cons c r ih =>
    have := c.utf8Size_pos
    rw [breaks, byteLength_cons]
    split <;> omega

theorem units_lastLine_le (cs : List Char) : units (lastLine cs) ≤ units cs := by
  induction cs with
  | nil => exact Nat.le_refl 0
  | cons c r ih =>
    rw [lastLine, units]
    split
    · split
      · omega
      · exact Nat.le_of_eq (by rw [units])
    · omega

theorem splitBytes_zero (cs : List Char) : splitBytes 0 cs = some ([], cs) := by
  cases cs <;> rfl

/-- A text is cut behind a part of the size that is asked for. -/
theorem splitBytes_append (a b : List Char) : splitBytes (byteLength a) (a ++ b) = some (a, b) := by
  induction a with
  | nil => exact splitBytes_zero b
  | cons c a ih =>
    have hpos := c.utf8Size_pos
    obtain ⟨n, hn⟩ : ∃ n, byteLength (c :: a) = n + 1 :=
      Nat.exists_eq_succ_of_ne_zero (by rw [byteLength_cons]; omega)
    have hsize : n + 1 - c.utf8Size = byteLength a := by
      rw [byteLength_cons] at hn
      omega
    have hle : c.utf8Size ≤ n + 1 := hn ▸ Nat.le_add_right _ _
    rw [hn, List.cons_append, splitBytes, if_pos hle, hsize, ih]
    rfl

theorem append_of_splitBytes {n : Nat} {cs a b : List Char} (h : splitBytes n cs = some (a, b)) :
    cs = a ++ b ∧ byteLength a = n := by
  induction n, cs using splitBytes.induct generalizing a with
  | case1 cs =>
    rw [splitBytes_zero] at h
    cases h
    exact ⟨rfl, rfl⟩
  | case2 n => cases h
  | case3 n c r hle ih =>
    rw [splitBytes, if_pos hle] at h
    obtain ⟨⟨x, y⟩, hxy, heq⟩ := Option.map_eq_some_iff.1 h
    cases heq
    obtain ⟨rfl, hsize⟩ := ih hxy
    refine ⟨rfl, ?_⟩
    rw [byteLength_cons]
    omega
  | case4 n c r hgt =>
    rw [splitBytes, if_neg hgt] at h
    cases h

/-- A text is cut where the first part has the size that is asked for. -/
theorem splitBytes_eq_some_iff {n : Nat} {cs a b : List Char} :
    splitBytes n cs = some (a, b) ↔ cs = a ++ b ∧ byteLength a = n := by
  refine ⟨append_of_splitBytes, ?_⟩
  rintro ⟨rfl, rfl⟩
  exact splitBytes_append a b
/-- The text of a span is what stands between its ends. -/
theorem Span.text?_eq_some {s : Span} {cs x t y : List Char} (h : cs = x ++ t ++ y)
    (hstart : byteLength x = s.start) (hstop : s.start + byteLength t = s.stop) :
    s.text? cs = some t := by
  have hrest : splitBytes s.start cs = some (x, t ++ y) :=
    splitBytes_eq_some_iff.2 ⟨by rw [h, List.append_assoc], hstart⟩
  have hpart : splitBytes (s.stop - s.start) (t ++ y) = some (t, y) :=
    splitBytes_eq_some_iff.2 ⟨rfl, by omega⟩
  unfold Span.text?
  rw [hrest]
  dsimp only [Option.bind_eq_bind, Option.bind_some]
  rw [hpart]
  rfl

namespace Position

/-! ### Reading order -/

theorem eq_iff {p q : Position} : p = q ↔ p.line = q.line ∧ p.column = q.column := by
  cases p
  cases q
  simp

theorem lt_iff {p q : Position} :
    p < q ↔ p.line < q.line ∨ p.line = q.line ∧ p.column < q.column := Iff.rfl

theorem le_iff {p q : Position} :
    p ≤ q ↔ p.line < q.line ∨ p.line = q.line ∧ p.column ≤ q.column := Iff.rfl

theorem lt_irrefl (p : Position) : ¬ p < p := by
  rw [lt_iff]
  omega

theorem lt_of_lt_of_le {p q r : Position} (h : p < q) (g : q ≤ r) : p < r := by
  rw [lt_iff] at *
  rw [le_iff] at g
  omega

theorem lt_of_le_of_lt {p q r : Position} (h : p ≤ q) (g : q < r) : p < r := by
  rw [le_iff] at h
  rw [lt_iff] at *
  omega

theorem lt_trans {p q r : Position} (h : p < q) (g : q < r) : p < r := by
  rw [lt_iff] at *
  omega

theorem le_refl (p : Position) : p ≤ p := by
  rw [le_iff]
  omega

theorem le_trans {p q r : Position} (h : p ≤ q) (g : q ≤ r) : p ≤ r := by
  rw [le_iff] at *
  omega

theorem le_total (p q : Position) : p ≤ q ∨ q ≤ p := by
  rw [le_iff, le_iff]
  omega

theorem le_antisymm {p q : Position} (h : p ≤ q) (g : q ≤ p) : p = q := by
  rw [le_iff] at h g
  rw [eq_iff]
  omega

theorem le_of_lt {p q : Position} (h : p < q) : p ≤ q := by
  rw [lt_iff] at h
  rw [le_iff]
  omega

theorem not_lt {p q : Position} : ¬ p < q ↔ q ≤ p := by
  rw [lt_iff, le_iff]
  omega

theorem not_le {p q : Position} : ¬ p ≤ q ↔ q < p := by
  rw [lt_iff, le_iff]
  omega

theorem lt_of_le_of_ne {p q : Position} (h : p ≤ q) (hne : p ≠ q) : p < q := by
  rw [← not_le]
  intro hle
  exact hne (le_antisymm h hle)

/-! ### Moving over text -/

@[simp] theorem line_origin : origin.line = 0 := rfl

@[simp] theorem column_origin : origin.column = 0 := rfl

theorem lt_step (p : Position) (c : Char) : p < p.step c := by
  have := one_le_units c
  rw [lt_iff]
  unfold step
  split
  · exact .inl (Nat.lt_succ_self _)
  · exact .inr ⟨rfl, by simp only []; omega⟩

/-- A text that is not empty moves a position forward. -/
theorem lt_after_cons (p : Position) (c : Char) (cs : List Char) : p < p.after (c :: cs) := by
  induction cs generalizing p c with
  | nil =>
    rw [after_cons, after_nil]
    exact lt_step p c
  | cons d r ih =>
    rw [after_cons]
    exact lt_trans (lt_step p c) (ih (p.step c) d)

theorem le_after (p : Position) (cs : List Char) : p ≤ p.after cs := by
  cases cs with
  | nil => exact le_refl p
  | cons c r => exact le_of_lt (lt_after_cons p c r)

/-- Of two places in a text, the one with more before it is the later one. -/
theorem after_lt_after_iff {p : Position} {cs x y : List Char} (hx : x <+: cs) (hy : y <+: cs) :
    p.after x < p.after y ↔ x.length < y.length := by
  rcases List.prefix_or_prefix_of_prefix hx hy with ⟨t, rfl⟩ | ⟨t, rfl⟩
  · cases t with
    | nil => simp [lt_irrefl]
    | cons c t =>
      rw [after_append, List.length_append, List.length_cons]
      exact iff_of_true (lt_after_cons _ c t) (by omega)
  · rw [after_append, List.length_append]
    exact iff_of_false (not_lt.2 (le_after _ t)) (by omega)

theorem line_after (p : Position) (cs : List Char) : (p.after cs).line = p.line + breaks cs := by
  unfold after
  split
  · simp only []
    omega
  · rfl

/-- Where a line has just been started, columns count from zero. -/
theorem column_after_break (p : Position) (cs : List Char) :
    (p.after (cs ++ ['\n'])).column = 0 := by
  rw [after_append]
  rfl

theorem column_after_le (p : Position) (cs : List Char) :
    (p.after cs).column ≤ p.column + units cs := by
  have := units_lastLine_le cs
  unfold after
  split <;> simp only [] <;> omega

/-- Of two beginnings of a text, one that ends at an earlier position is the shorter one. -/
theorem eq_of_after_eq {p : Position} {a b x y : List Char} (h : a ++ x = b ++ y)
    (hp : p.after a = p.after b) : a = b := by
  rcases List.append_eq_append_iff.1 h with ⟨m, rfl, -⟩ | ⟨m, rfl, -⟩
  · cases m with
    | nil => simp
    | cons c r =>
      have hlt := lt_after_cons (p.after a) c r
      rw [← after_append, ← hp] at hlt
      exact absurd hlt (lt_irrefl _)
  · cases m with
    | nil => simp
    | cons c r =>
      have hlt := lt_after_cons (p.after b) c r
      rw [← after_append, hp] at hlt
      exact absurd hlt (lt_irrefl _)

end Position

end SingleFile
