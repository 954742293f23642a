/-!
# Positions

A position is a line and a column, both counted from zero; columns count UTF-16 code units.
`Position.step` moves over one character, `Position.after` over a text at once, from the
number of its line breaks and the width of its last line.  `after_append` says that texts
laid end to end move a position one after the other, and `after_eq_foldl` that the two ways
of counting agree.
-/

namespace SingleFile

/-- A line and a column in UTF-16 code units, both from zero. -/
structure Position where
  line : Nat
  column : Nat
deriving DecidableEq, Repr, Inhabited

/-- The number of UTF-16 code units of a character. -/
def Char.units (c : Char) : Nat := if c.toNat < 0x10000 then 1 else 2

/-- The number of UTF-16 code units of a text. -/
def units : List Char → Nat
  | [] => 0
  | c :: r => Char.units c + units r

def breaks : List Char → Nat
  | [] => 0
  | c :: r => if c = '\n' then breaks r + 1 else breaks r

/-- What stands after the last line break of a text, or all of it where it has none. -/
def lastLine : List Char → List Char
  | [] => []
  | c :: r => if breaks r = 0 then (if c = '\n' then r else c :: r) else lastLine r

namespace Position

def origin : Position := ⟨0, 0⟩

/-- Reading order: by line, then by column. -/
protected def lt (p q : Position) : Prop := p.line < q.line ∨ p.line = q.line ∧ p.column < q.column

instance : LT Position := ⟨Position.lt⟩

instance (p q : Position) : Decidable (p < q) :=
  inferInstanceAs (Decidable (p.line < q.line ∨ p.line = q.line ∧ p.column < q.column))

protected def le (p q : Position) : Prop := p.line < q.line ∨ p.line = q.line ∧ p.column ≤ q.column

instance : LE Position := ⟨Position.le⟩

instance (p q : Position) : Decidable (p ≤ q) :=
  inferInstanceAs (Decidable (p.line < q.line ∨ p.line = q.line ∧ p.column ≤ q.column))

def step (p : Position) (c : Char) : Position :=
  if c = '\n' then ⟨p.line + 1, 0⟩ else ⟨p.line, p.column + Char.units c⟩

/-- The position after a text that starts at `p`. -/
def after (p : Position) (cs : List Char) : Position :=
  if breaks cs = 0 then ⟨p.line, p.column + units cs⟩
  else ⟨p.line + breaks cs, units (lastLine cs)⟩

@[simp] theorem after_nil (p : Position) : p.after [] = p := rfl

theorem after_cons (p : Position) (c : Char) (cs : List Char) :
    p.after (c :: cs) = (p.step c).after cs := by
  by_cases hc : c = '\n'
  · by_cases hb : breaks cs = 0
    · simp [after, step, breaks, lastLine, hc, hb]
    · simp only [after, step, breaks, lastLine, hc, hb, if_true, if_false, Nat.succ_ne_zero,
        mk.injEq, and_true]
      omega
  · by_cases hb : breaks cs = 0
    · simp [after, step, breaks, units, hc, hb, Nat.add_assoc]
    · simp [after, step, breaks, lastLine, hc, hb]

/-- Counting a text at once is counting its characters one by one. -/
theorem after_eq_foldl (p : Position) (cs : List Char) : p.after cs = cs.foldl step p := by
  induction cs generalizing p with
  | nil => rfl
  | cons c r ih => rw [after_cons, ih, List.foldl_cons]

theorem after_append (p : Position) (a b : List Char) : p.after (a ++ b) = (p.after a).after b := by
  simp [after_eq_foldl, List.foldl_append]

end Position

end SingleFile
