import SingleFile.Proofs.Text.Search
import SingleFile.Text.Cursor

/-!
# How cursors move

`Cursor.Moved` says that a cursor has moved over a text, and `Cursor.Before` that it has moved at all.
Each reader moves over what it takes (`moved_takeWhile`, `before_takeUntil`, `before_consumeFold?`), so
that what stands between two places that a cursor has been to is a part of the text.  The second
half says exactly where a reader stops on a text of a known shape (`takeWhile_append`,
`takeUntil_append`, `skipBlank_of_not_isBlank`).
-/

namespace SingleFile

theorem spanUntil_append (pattern cs : List Char) :
    (spanUntil pattern cs).1 ++ (spanUntil pattern cs).2 = cs := by
  induction cs with
  | nil => rfl
  | cons c r ih =>
    rw [spanUntil]
    split
    · rfl
    · rw [List.cons_append, ih]

/-- All up to the first occurrence is taken. -/
theorem spanUntil_of_not_infix {pattern before rest : List Char} {c : Char}
    (h : ¬ pattern ++ [c] <:+: before ++ pattern) :
    spanUntil (pattern ++ [c]) (before ++ (pattern ++ [c]) ++ rest) =
      (before, (pattern ++ [c]) ++ rest) := by
  induction before with
  | nil =>
    rw [List.nil_append]
    cases hp : pattern ++ [c] ++ rest with
    | nil => simp at hp
    | cons d r =>
      rw [spanUntil, ← hp, stripPrefix?_append]
      rfl
  | cons d before ih =>
    have hne : ¬ pattern ++ [c] <+: d :: (before ++ (pattern ++ [c]) ++ rest) := by
      rintro ⟨t, ht⟩
      have hcut : d :: (before ++ (pattern ++ [c]) ++ rest) =
          (d :: before ++ pattern) ++ c :: rest := by simp
      rw [hcut] at ht
      refine h (List.IsPrefix.isInfix ?_)
      refine List.prefix_of_prefix_length_le ⟨t, ht⟩ (List.prefix_append _ _) ?_
      simp
    rw [List.cons_append, List.cons_append, spanUntil, stripPrefix?_eq_none hne,
      if_neg (by simp), ih fun hi => h (List.infix_cons hi)]

/-! ### Sizes in any case -/

theorem toNat_ofNat_of_lt {n : Nat} (h : n < 128) : (Char.ofNat n).toNat = n := by
  have hv : n.isValidChar := .inl (by omega)
  unfold Char.ofNat
  rw [dif_pos hv]
  rfl

theorem utf8Size_eq_one_of_lt {c : Char} (h : c.toNat < 128) : c.utf8Size = 1 := by
  rw [Char.utf8Size_eq_one_iff, UInt32.le_iff_toNat_le]
  exact Nat.le_of_lt_succ h

theorem utf8Size_lowerAscii (c : Char) : (lowerAscii c).utf8Size = c.utf8Size := by
  unfold lowerAscii
  split
  · next h =>
    have hlo : 65 ≤ c.toNat := h.1
    have hhi : c.toNat ≤ 90 := h.2
    rw [utf8Size_eq_one_of_lt, utf8Size_eq_one_of_lt]
    · omega
    · rw [toNat_ofNat_of_lt] <;> omega
  · rfl

theorem byteLength_map_lowerAscii (cs : List Char) :
    byteLength (cs.map lowerAscii) = byteLength cs := by
  induction cs with
  | nil => rfl
  | cons c r ih => rw [List.map_cons, byteLength_cons, byteLength_cons, ih, utf8Size_lowerAscii]

/-- Texts that differ in case only have the same size. -/
theorem byteLength_eq_of_map_lowerAscii_eq {a b : List Char}
    (h : a.map lowerAscii = b.map lowerAscii) : byteLength a = byteLength b := by
  rw [← byteLength_map_lowerAscii a, h, byteLength_map_lowerAscii]

namespace Cursor

/-- One cursor stands behind another, with a text between them. -/
def Moved (a : Cursor) (taken : List Char) (b : Cursor) : Prop :=
  a.rest = taken ++ b.rest ∧ b.offset = a.offset + byteLength taken

theorem Moved.refl (a : Cursor) : a.Moved [] a := ⟨rfl, rfl⟩

theorem Moved.trans {a b c : Cursor} {s t : List Char} (h : a.Moved s b) (g : b.Moved t c) :
    a.Moved (s ++ t) c := by
  refine ⟨by rw [h.1, g.1, List.append_assoc], ?_⟩
  rw [g.2, h.2, byteLength_append, Nat.add_assoc]

theorem moved_move {a : Cursor} {taken rest : List Char} (h : a.rest = taken ++ rest) :
    a.Moved taken (a.move taken rest) := ⟨h, rfl⟩

theorem moved_mk (o : Nat) (taken rest : List Char) :
    Moved ⟨o, taken ++ rest⟩ taken ⟨o + byteLength taken, rest⟩ := ⟨rfl, rfl⟩

def Before (a b : Cursor) : Prop := ∃ s, a.Moved s b

theorem Before.refl (a : Cursor) : a.Before a := ⟨[], .refl a⟩

theorem Before.trans {a b c : Cursor} (h : a.Before b) (g : b.Before c) : a.Before c := by
  obtain ⟨s, hs⟩ := h
  obtain ⟨t, ht⟩ := g
  exact ⟨s ++ t, hs.trans ht⟩

theorem before_next (a : Cursor) : a.Before a.next := by
  unfold next
  split
  · next c r h => exact ⟨[c], moved_move h⟩
  · exact .refl a

theorem moved_takeWhile (a : Cursor) (p : Char → Bool) :
    a.Moved (a.takeWhile p).1 (a.takeWhile p).2 :=
  moved_move List.takeWhile_append_dropWhile.symm

theorem before_takeWhile (a : Cursor) (p : Char → Bool) : a.Before (a.takeWhile p).2 :=
  ⟨_, moved_takeWhile a p⟩

theorem before_skipBlank (a : Cursor) : a.Before a.skipBlank := before_takeWhile a isBlank

theorem moved_consume? {a b : Cursor} {pattern : String} (h : a.consume? pattern = some b) :
    a.Moved pattern.toList b := by
  obtain ⟨rest, hs, rfl⟩ := Option.map_eq_some_iff.1 h
  exact moved_move (stripPrefix?_eq_some_iff.1 hs)

theorem before_consume (a : Cursor) (pattern : String) : a.Before (a.consume pattern) := by
  unfold consume
  cases h : a.consume? pattern with
  | none => exact .refl a
  | some b => exact ⟨_, moved_consume? h⟩

theorem before_takeUntil (a : Cursor) (pattern : String) : a.Before (a.takeUntil pattern).2 :=
  ⟨_, moved_move (spanUntil_append _ _).symm⟩

theorem before_consumeFold? {a b : Cursor} {pattern : String}
    (h : a.consumeFold? pattern = some b) : a.Before b := by
  obtain ⟨rest, hs, rfl⟩ := Option.map_eq_some_iff.1 h
  obtain ⟨s, hr, hf⟩ := stripPrefixFold?_eq_some_iff.1 hs
  exact ⟨s, hr, by rw [byteLength_eq_of_map_lowerAscii_eq hf]; rfl⟩

/-! ### Where readers stop -/

section Stops

variable {o : Nat} {a b : List Char}

theorem takeWhile_append {p : Char → Bool} (ha : ∀ c ∈ a, p c = true)
    (hb : ∀ c ∈ b.head?, p c = false) :
    takeWhile ⟨o, a ++ b⟩ p = (a, ⟨o + byteLength a, b⟩) := by
  unfold takeWhile spanWhile
  simp only []
  rw [takeWhile_append_of_head ha hb, dropWhile_append_of_head ha hb]
  rfl

theorem skipBlank_of_not_isBlank (hb : ∀ c ∈ b.head?, isBlank c = false) :
    skipBlank ⟨o, b⟩ = ⟨o, b⟩ := by
  unfold skipBlank
  rw [← List.nil_append b, takeWhile_append (by simp) hb]
  rfl

theorem skipBlank_cons {c : Char} (hc : isBlank c = true) :
    skipBlank ⟨o, c :: b⟩ = skipBlank ⟨o + c.utf8Size, b⟩ := by
  unfold skipBlank takeWhile spanWhile move
  simp [hc, Nat.add_assoc]

theorem skipBlank_skipBlank (cursor : Cursor) : cursor.skipBlank.skipBlank = cursor.skipBlank := by
  refine skipBlank_of_not_isBlank fun c hc => ?_
  have hd := List.head?_dropWhile_not isBlank cursor.rest
  have hc' : (cursor.rest.dropWhile isBlank).head? = some c := hc
  rw [hc'] at hd
  exact hd

theorem startsWith_iff {pattern : String} : startsWith ⟨o, b⟩ pattern ↔ pattern.toList <+: b :=
  isSome_stripPrefix?_iff

theorem consume?_append (pattern : String) :
    consume? ⟨o, pattern.toList ++ b⟩ pattern = some ⟨o + byteLength pattern.toList, b⟩ := by
  unfold consume?
  rw [stripPrefix?_append]
  rfl

theorem consume?_eq_none {pattern : String} (h : ¬ pattern.toList <+: b) :
    consume? ⟨o, b⟩ pattern = none := by
  unfold consume?
  rw [stripPrefix?_eq_none h]
  rfl

theorem consume_append (pattern : String) :
    consume ⟨o, pattern.toList ++ b⟩ pattern = ⟨o + byteLength pattern.toList, b⟩ := by
  rw [consume, consume?_append, Option.getD_some]

theorem consumeFold?_append {pattern : String} (h : a.map lowerAscii = pattern.toList.map lowerAscii) :
    consumeFold? ⟨o, a ++ b⟩ pattern = some ⟨o + byteLength a, b⟩ := by
  unfold consumeFold?
  rw [stripPrefixFold?_eq_some_iff.2 ⟨a, rfl, h⟩, byteLength_eq_of_map_lowerAscii_eq h]
  rfl

theorem takeUntil_append {pattern : String} {t : List Char} {c : Char}
    (hp : pattern.toList = t ++ [c]) (h : ¬ t ++ [c] <:+: a ++ t) :
    takeUntil ⟨o, a ++ (pattern.toList ++ b)⟩ pattern =
      (a, ⟨o + byteLength a, pattern.toList ++ b⟩) := by
  unfold takeUntil
  simp only [hp]
  rw [← List.append_assoc, spanUntil_of_not_infix h]
  rfl

end Stops

end Cursor

end SingleFile
