/-!
# Searching texts

Finding, splitting at and replacing a pattern in a text, and comparison without regard to
the case of ASCII letters.  `splitFirst_eq` and `splitLast_eq` say that a split loses nothing.
-/

namespace SingleFile

/-- What follows `pattern` where the text starts with it. -/
def stripPrefix? [BEq α] : List α → List α → Option (List α)
  | [], rest => some rest
  | _ :: _, [] => none
  | p :: ps, c :: cs => if p == c then stripPrefix? ps cs else none

/-- The parts before and after the first occurrence of `pattern`. -/
def splitFirst? (pattern : List Char) : List Char → Option (List Char × List Char)
  | [] => if pattern.isEmpty then some ([], []) else none
  | c :: r =>
    match stripPrefix? pattern (c :: r) with
    | some rest => some ([], rest)
    | none => (splitFirst? pattern r).map fun (a, b) => (c :: a, b)

/-- The parts before and after the last occurrence of `pattern`. -/
def splitLast? (pattern : List Char) : List Char → Option (List Char × List Char)
  | [] => if pattern.isEmpty then some ([], []) else none
  | c :: r =>
    match splitLast? pattern r with
    | some (a, b) => some (c :: a, b)
    | none => (stripPrefix? pattern (c :: r)).map fun rest => ([], rest)

theorem eq_append_of_stripPrefix? {p cs rest : List Char} (h : stripPrefix? p cs = some rest) :
    cs = p ++ rest := by
  induction p generalizing cs with
  | nil => simpa [stripPrefix?] using h
  | cons a p ih =>
    cases cs with
    | nil => simp [stripPrefix?] at h
    | cons c r =>
      by_cases hc : a == c
      · simp only [stripPrefix?, hc, if_true] at h
        rw [ih h, eq_of_beq hc, List.cons_append]
      · simp [stripPrefix?, hc] at h

theorem splitFirst_eq {p cs a b : List Char} (h : splitFirst? p cs = some (a, b)) :
    cs = a ++ p ++ b := by
  induction cs generalizing a with
  | nil =>
    cases p <;> simp_all [splitFirst?]
  | cons c r ih =>
    simp only [splitFirst?] at h
    cases hs : stripPrefix? p (c :: r) with
    | some rest =>
      rw [hs] at h
      obtain ⟨rfl, rfl⟩ : a = [] ∧ b = rest := by simpa [eq_comm] using h
      simpa using eq_append_of_stripPrefix? hs
    | none =>
      rw [hs] at h
      obtain ⟨⟨a', b'⟩, h', heq⟩ := Option.map_eq_some_iff.1 h
      obtain ⟨rfl, rfl⟩ : a = c :: a' ∧ b = b' := by simpa [eq_comm] using heq
      simp [ih h']

theorem splitLast_eq {p cs a b : List Char} (h : splitLast? p cs = some (a, b)) :
    cs = a ++ p ++ b := by
  induction cs generalizing a with
  | nil =>
    cases p <;> simp_all [splitLast?]
  | cons c r ih =>
    simp only [splitLast?] at h
    cases hs : splitLast? p r with
    | some ab =>
      obtain ⟨a', b'⟩ := ab
      rw [hs] at h
      obtain ⟨rfl, rfl⟩ : a = c :: a' ∧ b = b' := by simpa [eq_comm] using h
      simp [ih hs]
    | none =>
      rw [hs] at h
      obtain ⟨rest, h', heq⟩ := Option.map_eq_some_iff.1 h
      obtain ⟨rfl, rfl⟩ : a = [] ∧ b = rest := by simpa [eq_comm] using heq
      simpa using eq_append_of_stripPrefix? h'

/-- Whether `pattern` occurs in a text. -/
def occursIn (pattern cs : List Char) : Bool := (splitFirst? pattern cs).isSome

/-- Replaces every occurrence of a pattern, from left to right; `skip` characters of the
text are part of an occurrence that has been replaced already. -/
def replaceFrom (pattern replacement : List Char) : Nat → List Char → List Char
  | _, [] => []
  | 0, c :: r =>
    if (stripPrefix? pattern (c :: r)).isSome && !pattern.isEmpty then
      replacement ++ replaceFrom pattern replacement (pattern.length - 1) r
    else c :: replaceFrom pattern replacement 0 r
  | n + 1, _ :: r => replaceFrom pattern replacement n r

/-- Replaces every occurrence of a pattern that is not empty, from left to right. -/
def replaceAll (pattern replacement cs : List Char) : List Char :=
  replaceFrom pattern replacement 0 cs

/-- The pieces of a text between the occurrences of a character, empty ones included. -/
def splitAt (sep : Char) : List Char → List (List Char)
  | [] => [[]]
  | c :: r =>
    if c = sep then [] :: splitAt sep r
    else match splitAt sep r with
      | [] => [[c]]
      | piece :: pieces => (c :: piece) :: pieces

/-- The small form of an ASCII letter; other characters are kept. -/
def lowerAscii (c : Char) : Char :=
  if 'A' ≤ c ∧ c ≤ 'Z' then Char.ofNat (c.toNat + 32) else c

/-- What follows `pattern` where the text starts with it in any ASCII case. -/
def stripPrefixFold? (pattern cs : List Char) : Option (List Char) :=
  if (stripPrefix? (pattern.map lowerAscii) ((cs.take pattern.length).map lowerAscii)).isSome
  then some (cs.drop pattern.length) else none

def equalFold (a b : List Char) : Bool := a.map lowerAscii == b.map lowerAscii

end SingleFile
