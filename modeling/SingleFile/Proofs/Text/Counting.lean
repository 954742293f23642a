import Mathlib.Data.List.DropRight
import SingleFile.Proofs.Text.Search

/-!
# Counting lines and columns

There are two ways to move a position over a text: at once, by the newlines of the text and by what
stands behind the last one, or character by character.  `after_counts` says that they agree, that
texts laid end to end move a position one after the other, and that of two beginnings of a text the
longer one ends at the later position.  Newlines may be counted in the bytes of a text, because no
other character has the byte of one (`count_utf8EncodeChar`).
-/

namespace SingleFile

def utf8 (cs : List Char) : List UInt8 := cs.flatMap String.utf8EncodeChar

@[simp] theorem utf8_cons (c : Char) (r : List Char) :
    utf8 (c :: r) = String.utf8EncodeChar c ++ utf8 r := List.flatMap_cons

@[simp] theorem utf8_append (a b : List Char) : utf8 (a ++ b) = utf8 a ++ utf8 b :=
  List.flatMap_append

@[simp] theorem length_utf8 (cs : List Char) : (utf8 cs).length = byteLength cs := by
  induction cs with
  | nil => rfl
  | cons c r ih => rw [utf8_cons, List.length_append, String.length_utf8EncodeChar, ih, byteLength]

theorem toList_toUTF8 (text : String) : text.toUTF8.data.toList = utf8 text.toList := by
  have h : text.toUTF8 = (utf8 text.toList).toByteArray := String.utf8Encode_toList.symm
  rw [h, List.data_toByteArray, List.toList_toArray]

/-! ### Newlines -/

theorem ofNat_ne_newline {n : Nat} (hlow : 128 ≤ n) (hhigh : n < 256) : UInt8.ofNat n ≠ 10 := by
  intro h
  have hn : n % 256 = 10 := congrArg UInt8.toNat h
  omega

/-- The byte of a newline stands for nothing else. -/
theorem count_utf8EncodeChar (c : Char) :
    (String.utf8EncodeChar c).count 10 = if c = '\n' then 1 else 0 := by
  by_cases hc : c = '\n'
  · subst hc
    rfl
  · rw [if_neg hc, List.count_eq_zero]
    have hv : c.val.toNat ≠ 10 := fun h => hc (Char.ext (UInt32.toNat_inj.1 h))
    unfold String.utf8EncodeChar
    extract_lets v
    -- every byte of a longer encoding is above the bytes of short ones
    split_ifs with hone htwo hthree <;> simp only [List.mem_cons, List.not_mem_nil, or_false]
    · intro h
      have hmod : v % 256 = 10 := (congrArg UInt8.toNat h).symm
      omega
    · rintro (h | h) <;> exact ofNat_ne_newline (by omega) (by omega) h.symm
    · rintro (h | h | h) <;> exact ofNat_ne_newline (by omega) (by omega) h.symm
    · rintro (h | h | h | h) <;> exact ofNat_ne_newline (by omega) (by omega) h.symm

theorem breaks_eq_count (cs : List Char) : breaks cs = (utf8 cs).count 10 := by
  induction cs with
  | nil => rfl
  | cons c r ih =>
    rw [utf8_cons, List.count_append, count_utf8EncodeChar, breaks, ih]
    split <;> omega

theorem lastLine_concat_break (cs : List Char) : lastLine (cs ++ ['\n']) = [] := by
  induction cs with
  | nil => rfl
  | cons c r ih =>
    have hbreaks : breaks (r ++ ['\n']) ≠ 0 := by
      rw [breaks_append]
      exact Nat.succ_ne_zero _
    rw [List.cons_append, lastLine, if_neg hbreaks, ih]

/-- The last line is read from the end of a text. -/
theorem lastLine_eq_rtakeWhile (cs : List Char) : lastLine cs = cs.rtakeWhile (· ≠ '\n') := by
  induction cs using List.reverseRecOn with
  | nil => rfl
  | append_singleton cs c ih =>
    by_cases hc : c = '\n'
    · rw [List.rtakeWhile_concat_neg _ _ _ (by simpa using hc), hc, lastLine_concat_break]
    · have hbreaks : breaks [c] = 0 := by simp [breaks, hc]
      rw [List.rtakeWhile_concat_pos _ _ _ (by simpa using hc), lastLine_append hbreaks, ih]

/-! ### Positions -/

namespace Position

/-- Moving at once takes the newlines from the bytes and the column from behind the last one. -/
theorem after_eq_count (p : Position) (cs : List Char) :
    p.after cs = ⟨p.line + (utf8 cs).count 10,
      (if 10 ∈ utf8 cs then 0 else p.column) + units (cs.rtakeWhile (· ≠ '\n'))⟩ := by
  unfold after
  rw [← lastLine_eq_rtakeWhile, ← breaks_eq_count]
  by_cases h : breaks cs = 0
  · have hnone : 10 ∉ utf8 cs := List.count_eq_zero.1 (breaks_eq_count cs ▸ h)
    rw [if_pos h, if_neg hnone, lastLine_of_breaks_eq_zero h, h, Nat.add_zero]
  · have hsome : 10 ∈ utf8 cs := by
      by_contra hnone
      exact h (by rw [breaks_eq_count, List.count_eq_zero.2 hnone])
    rw [if_neg h, if_pos hsome, Nat.zero_add]

/-- **The two ways of counting agree**, over any text and from any position: at once by newline
bytes and the units behind the last one, part by part, or character by character.  They tell the
characters of a text apart, in the order of the text. -/
theorem after_counts (p : Position) (a b : List Char) :
    p.after a = ⟨p.line + (utf8 a).count 10,
      (if 10 ∈ utf8 a then 0 else p.column) + units (a.rtakeWhile (· ≠ '\n'))⟩ ∧
    p.after (a ++ b) = (p.after a).after b ∧
    p.after a = a.foldl step p ∧
    ∀ x y, x <+: a → y <+: a → (p.after x < p.after y ↔ x.length < y.length) :=
  ⟨after_eq_count p a, after_append p a b, after_eq_foldl p a,
    fun _ _ hx hy => after_lt_after_iff hx hy⟩

/-- A text with a wide character on either side of its newline, from inside a line. -/
theorem after_counts_wideText :
    ['é', '😀'] <+: "é😀\n😀".toList ∧ ['é', '😀', '\n'] <+: "é😀\n😀".toList ∧
      (⟨3, 5⟩ : Position).after ("é😀\n😀".toList ++ ['x']) = ⟨4, 3⟩ ∧
      (⟨3, 5⟩ : Position).after ['é', '😀'] < (⟨3, 5⟩ : Position).after ['é', '😀', '\n'] := by
  have hx : ['é', '😀'] <+: "é😀\n😀".toList := by decide
  have hy : ['é', '😀', '\n'] <+: "é😀\n😀".toList := by decide
  obtain ⟨-, happend, -, horder⟩ := after_counts ⟨3, 5⟩ "é😀\n😀".toList ['x']
  exact ⟨hx, hy, happend.trans (by decide), (horder _ _ hx hy).2 (by decide)⟩

end Position

end SingleFile
