import Mathlib.Data.List.Infix
import Mathlib.Tactic.SplitIfs
import SingleFile.Json.Reader

/-!
# What a string literal means

The value of a string literal is a list of code units, of which a character takes one or two
(`unitsOf`).  `InLiteral.step` reads a literal between single quotes character by character, with its
escapes, and `literalValue?` gives the value of what stands between the quotes, if that is a literal at
all.

An escape takes at least one more character than it means (`length_step_le`), so a text that is put
between quotes means itself just when it has no quote, no backslash and no line break
(`literalValue?_eq_iff`).
-/

namespace SingleFile.Script

def codeUnits (n : Nat) : List Nat :=
  if n < 0x10000 then [n] else [0xD7C0 + n / 0x400, 0xDC00 + n % 0x400]

def unitsOf (cs : List Char) : List Nat := cs.flatMap fun c => codeUnits c.toNat

/-- Where the reading of a literal stands: in plain text, behind a zero that no digit may follow, behind
an escaped carriage return, or in an escape. -/
inductive InLiteral where
  | plain
  | zero
  | returned
  | escape
  | hex (value more : Nat)
  | unicode
  | braces (value : Nat) (any : Bool)

namespace InLiteral

/-- The escape of a line break stands for nothing. -/
def isLineBreak (c : Char) : Bool := c = '\n' || c.toNat = 0x2028 || c.toNat = 0x2029

def plainStep (c : Char) : Option (InLiteral × List Nat) :=
  if c = '\'' ∨ c = '\n' ∨ c = '\r' then none
  else if c = '\\' then some (escape, [])
  else some (plain, codeUnits c.toNat)

/-- The letters that stand for one code unit behind a backslash. -/
def letters : List (Char × Nat) := [('b', 8), ('t', 9), ('n', 10), ('v', 11), ('f', 12), ('r', 13)]

def otherEscape (c : Char) : Option (InLiteral × List Nat) :=
  if c = '0' then some (zero, [0])
  else if c.isDigit then none
  else if c = 'x' then some (hex 0 1, [])
  else if c = 'u' then some (unicode, [])
  else if c = '\r' then some (returned, [])
  else if isLineBreak c then some (plain, [])
  else some (plain, codeUnits c.toNat)

def escapeStep (c : Char) : Option (InLiteral × List Nat) :=
  match letters.lookup c with
  | some unit => some (plain, [unit])
  | none => otherEscape c

/-- What a character means, and where the reading stands behind it; nothing where it may not stand. -/
def step (c : Char) : InLiteral → Option (InLiteral × List Nat)
  | plain => plainStep c
  | zero => if c.isDigit then none else plainStep c
  | returned => if c = '\n' then some (plain, []) else plainStep c
  | escape => escapeStep c
  | hex value more => (Json.hexValue c).map fun d =>
    match more with
    | 0 => (plain, [value * 16 + d])
    | more + 1 => (hex (value * 16 + d) more, [])
  | unicode =>
    if c = '\x7b' then some (braces 0 false, []) else (Json.hexValue c).map fun d => (hex d 2, [])
  | braces value any =>
    if c = '\x7d' then if any ∧ value < 0x110000 then some (plain, codeUnits value) else none
    else (Json.hexValue c).map fun d => (braces (value * 16 + d) true, [])

def ends : InLiteral → Bool
  | plain | zero | returned => true
  | _ => false

end InLiteral

/-- The value of the rest of a literal, up to its closing quote. -/
def literalValue? : InLiteral → List Char → Option (List Nat)
  | state, [] => if state.ends then some [] else none
  | state, c :: r =>
    match state.step c with
    | some (next, units) => (literalValue? next r).map (units ++ ·)
    | none => none

/-- A text that stands for itself between single quotes. -/
def PlainText (cs : List Char) : Prop := ∀ c ∈ cs, c ≠ '\'' ∧ c ≠ '\\' ∧ c ≠ '\n' ∧ c ≠ '\r'

instance (cs : List Char) : Decidable (PlainText cs) :=
  List.decidableBAll (fun c => c ≠ '\'' ∧ c ≠ '\\' ∧ c ≠ '\n' ∧ c ≠ '\r') cs

theorem plainText_cons_iff {c : Char} {r : List Char} : PlainText (c :: r) ↔
    (c ≠ '\'' ∧ c ≠ '\\' ∧ c ≠ '\n' ∧ c ≠ '\r') ∧ PlainText r := List.forall_mem_cons

/-! ### Code units -/

theorem unitsOf_cons (c : Char) (r : List Char) : unitsOf (c :: r) = codeUnits c.toNat ++ unitsOf r :=
  rfl

theorem length_codeUnits_pos (n : Nat) : 1 ≤ (codeUnits n).length := by
  unfold codeUnits
  split <;> simp

theorem length_codeUnits_le (n : Nat) : (codeUnits n).length ≤ 2 := by
  unfold codeUnits
  split <;> simp

/-- A character is no half of a pair. -/
theorem not_surrogate (c : Char) : ¬ (0xD800 ≤ c.toNat ∧ c.toNat < 0xE000) := by
  have hvalid : c.toNat.isValidChar := c.valid
  rintro ⟨hlow, hhigh⟩
  rcases hvalid with h | ⟨h, -⟩ <;> omega

theorem toNat_lt (c : Char) : c.toNat < 0x110000 := by
  have hvalid : c.toNat.isValidChar := c.valid
  rcases hvalid with h | ⟨-, h⟩ <;> omega

theorem codeUnits_append_inj {c d : Char} {a b : List Nat}
    (h : codeUnits c.toNat ++ a = codeUnits d.toNat ++ b) : c = d ∧ a = b := by
  have hc := not_surrogate c
  have hd := not_surrogate d
  have hctop := toNat_lt c
  have hdtop := toNat_lt d
  unfold codeUnits at h
  split at h <;> split at h <;>
    simp only [List.cons_append, List.nil_append, List.cons.injEq] at h
  · exact ⟨Char.toNat_inj.1 h.1, h.2⟩
  · omega
  · omega
  · exact ⟨Char.toNat_inj.1 (by omega), h.2.2⟩

/-- Different texts have different code units. -/
theorem unitsOf_injective : Function.Injective unitsOf := by
  intro cs
  induction cs with
  | nil =>
    intro ds h
    cases ds with
    | nil => rfl
    | cons d ds =>
      have hlength := congrArg List.length h
      have hpos := length_codeUnits_pos d.toNat
      rw [unitsOf_cons, List.length_append] at hlength
      simp only [unitsOf, List.flatMap_nil, List.length_nil] at hlength
      omega
  | cons c cs ih =>
    intro ds h
    cases ds with
    | nil =>
      have hlength := congrArg List.length h
      have hpos := length_codeUnits_pos c.toNat
      rw [unitsOf_cons, List.length_append] at hlength
      simp only [unitsOf, List.flatMap_nil, List.length_nil] at hlength
      omega
    | cons d ds =>
      rw [unitsOf_cons, unitsOf_cons] at h
      obtain ⟨rfl, hrest⟩ := codeUnits_append_inj h
      rw [ih hrest]

/-! ### Escapes -/

/-- The code units that may still come from what has been read. -/
def InLiteral.credit : InLiteral → Nat
  | .unicode => 1
  | .braces _ _ => 2
  | _ => 0

theorem length_plainStep_le {c : Char} {next : InLiteral} {units : List Nat}
    (h : InLiteral.plainStep c = some (next, units)) :
    units.length + next.credit ≤ (codeUnits c.toNat).length := by
  unfold InLiteral.plainStep at h
  split_ifs at h <;> cases h <;> simp [InLiteral.credit]

theorem length_escapeStep_le {c : Char} {next : InLiteral} {units : List Nat}
    (h : InLiteral.escapeStep c = some (next, units)) :
    units.length + next.credit ≤ (codeUnits c.toNat).length := by
  have hpos := length_codeUnits_pos c.toNat
  unfold InLiteral.escapeStep InLiteral.otherEscape at h
  split at h
  · cases h
    exact hpos
  · split_ifs at h <;> cases h <;> first | exact hpos | exact Nat.zero_le _ | exact Nat.le_refl _

/-- No character means more than itself and what was left open in front of it. -/
theorem length_step_le {state next : InLiteral} {c : Char} {units : List Nat}
    (h : state.step c = some (next, units)) :
    units.length + next.credit ≤ (codeUnits c.toNat).length + state.credit := by
  have hpos := length_codeUnits_pos c.toNat
  cases state with
  | plain => exact length_plainStep_le h
  | zero =>
    rw [InLiteral.step] at h
    split_ifs at h
    exact length_plainStep_le h
  | returned =>
    rw [InLiteral.step] at h
    split_ifs at h
    · cases h
      simp [InLiteral.credit]
    · exact length_plainStep_le h
  | escape => exact length_escapeStep_le h
  | hex value more =>
    rw [InLiteral.step, Option.map_eq_some_iff] at h
    obtain ⟨d, -, hd⟩ := h
    cases more <;> cases hd <;> simp only [InLiteral.credit, List.length_cons, List.length_nil] <;> omega
  | unicode =>
    rw [InLiteral.step] at h
    split_ifs at h
    · cases h
      simp only [InLiteral.credit, List.length_nil]
      omega
    · obtain ⟨d, -, hd⟩ := Option.map_eq_some_iff.1 h
      cases hd
      simp [InLiteral.credit]
  | braces value any =>
    rw [InLiteral.step] at h
    split_ifs at h
    · cases h
      have hle := length_codeUnits_le value
      simp only [InLiteral.credit]
      omega
    · obtain ⟨d, -, hd⟩ := Option.map_eq_some_iff.1 h
      cases hd
      simp [InLiteral.credit]

theorem literalValue?_cons {state : InLiteral} {c : Char} {r : List Char} {value : List Nat}
    (h : literalValue? state (c :: r) = some value) : ∃ next units rest,
    state.step c = some (next, units) ∧ literalValue? next r = some rest ∧ value = units ++ rest := by
  rw [literalValue?] at h
  cases hstep : state.step c with
  | none =>
    rw [hstep] at h
    cases h
  | some taken =>
    obtain ⟨next, units⟩ := taken
    rw [hstep] at h
    obtain ⟨rest, hrest, rfl⟩ := Option.map_eq_some_iff.1 h
    exact ⟨next, units, rest, rfl, hrest, rfl⟩

/-- A literal means no more than its text. -/
theorem length_literalValue?_le {state : InLiteral} {cs : List Char} {value : List Nat}
    (h : literalValue? state cs = some value) : value.length ≤ (unitsOf cs).length + state.credit := by
  induction cs generalizing state value with
  | nil =>
    rw [literalValue?] at h
    split_ifs at h
    cases h
    exact Nat.zero_le _
  | cons c r ih =>
    obtain ⟨next, units, rest, hstep, hrest, rfl⟩ := literalValue?_cons h
    have hle := length_step_le hstep
    have hrestLe := ih hrest
    rw [unitsOf_cons, List.length_append, List.length_append]
    omega

/-- A text stands for itself between quotes just when nothing in it is special there. -/
theorem literalValue?_eq_iff {cs : List Char} :
    literalValue? .plain cs = some (unitsOf cs) ↔ PlainText cs := by
  induction cs with
  | nil => exact iff_of_true rfl fun c hc => absurd hc List.not_mem_nil
  | cons c r ih =>
    rw [plainText_cons_iff, ← ih]
    constructor
    · intro h
      obtain ⟨next, units, rest, hstep, hrest, hunits⟩ := literalValue?_cons h
      rw [InLiteral.step, InLiteral.plainStep] at hstep
      split_ifs at hstep with hstops hescape
      · -- behind a backslash, less is left to mean than there is text
        cases hstep
        have hle := length_literalValue?_le hrest
        have hpos := length_codeUnits_pos c.toNat
        have hlength := congrArg List.length hunits
        rw [unitsOf_cons, List.length_append, List.nil_append] at hlength
        simp only [InLiteral.credit] at hle
        omega
      · cases hstep
        rw [unitsOf_cons] at hunits
        rw [not_or, not_or] at hstops
        exact ⟨⟨hstops.1, hescape, hstops.2⟩, by rw [hrest, List.append_cancel_left hunits]⟩
    · rintro ⟨⟨hquote, hescape, hfeed, hreturn⟩, hrest⟩
      have hstep : InLiteral.plain.step c = some (.plain, codeUnits c.toNat) := by
        rw [InLiteral.step, InLiteral.plainStep, if_neg (by simp [hquote, hfeed, hreturn]),
          if_neg hescape]
      rw [literalValue?, hstep, unitsOf_cons]
      simp only [hrest, Option.map_some]

/-- A brace at the end of a line is in no literal. -/
theorem literalValue?_brace_break (state : InLiteral) (front back : List Char) :
    literalValue? state (front ++ '\x7b' :: '\n' :: back) = none := by
  induction front generalizing state with
  | nil =>
    rw [List.nil_append, Option.eq_none_iff_forall_ne_some]
    intro value h
    obtain ⟨next, units, rest, hstep, hrest, -⟩ := literalValue?_cons h
    obtain ⟨next', units', rest', hfeed, -, -⟩ := literalValue?_cons hrest
    -- the brace ends all escapes but one, which goes on with digits
    have hopen : next = .plain ∨ next = .braces 0 false := by
      cases state with
      | unicode =>
        cases hstep
        exact .inr rfl
      | braces value any => cases hstep
      | hex value more => cases hstep
      | _ =>
        cases hstep
        exact .inl rfl
    rcases hopen with rfl | rfl
    · cases hfeed
    · cases hfeed
  | cons c front ih =>
    rw [List.cons_append, literalValue?]
    cases state.step c with
    | none => rfl
    | some taken => simp only [ih, Option.map_none]

end SingleFile.Script
