import SingleFile.Proofs.Text.Counting
import SingleFile.Text.LineIndex

/-!
# Lines by byte offset

The starts that a line index keeps are the ends of the newlines among the bytes of the text
(`startsAfter_eq`), whatever the characters are.  They are in order, so the search among them counts
the newlines before an offset, and the start that it finds is the end of the last one.
`position_exact` says so of every offset up to the size of the text, inside a character or not, and
`line_position` of the offset of a character.
-/

namespace SingleFile.LineIndex

/-! ### Newlines among bytes -/

/-- The offsets just after each newline of bytes that start at `offset`. -/
def newlineEnds : Nat → List UInt8 → List Nat
  | _, [] => []
  | offset, b :: r =>
    if b = 10 then (offset + 1) :: newlineEnds (offset + 1) r else newlineEnds (offset + 1) r

theorem newlineEnds_append (o : Nat) (a b : List UInt8) :
    newlineEnds o (a ++ b) = newlineEnds o a ++ newlineEnds (o + a.length) b := by
  induction a generalizing o with
  | nil => rfl
  | cons x r ih =>
    rw [List.cons_append, newlineEnds, newlineEnds, ih, List.length_cons, Nat.add_right_comm,
      Nat.add_assoc o]
    split <;> rfl

theorem length_newlineEnds (o : Nat) (bs : List UInt8) :
    (newlineEnds o bs).length = bs.count 10 := by
  induction bs generalizing o with
  | nil => rfl
  | cons b r ih =>
    rw [newlineEnds]
    split
    · next hb => rw [List.length_cons, ih, hb, List.count_cons_self]
    · next hb => rw [ih, List.count_cons_of_ne hb]

theorem mem_newlineEnds {o n : Nat} {bs : List UInt8} (h : n ∈ newlineEnds o bs) :
    o < n ∧ n ≤ o + bs.length := by
  induction bs generalizing o with
  | nil => exact absurd h List.not_mem_nil
  | cons b r ih =>
    have hrest (hn : n ∈ newlineEnds (o + 1) r) : o < n ∧ n ≤ o + (b :: r).length := by
      have := ih hn
      rw [List.length_cons]
      omega
    rw [newlineEnds] at h
    split at h
    · rcases List.mem_cons.1 h with rfl | h
      · rw [List.length_cons]
        omega
      · exact hrest h
    · exact hrest h

theorem pairwise_newlineEnds (o : Nat) (bs : List UInt8) :
    (newlineEnds o bs).Pairwise (· < ·) := by
  induction bs generalizing o with
  | nil => exact .nil
  | cons b r ih =>
    rw [newlineEnds]
    split
    · exact .cons (fun n hn => (mem_newlineEnds hn).1) (ih _)
    · exact ih _

/-- As many newlines end up to an offset as there are before it. -/
theorem countP_newlineEnds (o : Nat) (a b : List UInt8) :
    (newlineEnds o (a ++ b)).countP (· ≤ o + a.length) = a.count 10 := by
  have hfront : (newlineEnds o a).countP (· ≤ o + a.length) = (newlineEnds o a).length :=
    List.countP_eq_length.2 fun n hn => by simpa using (mem_newlineEnds hn).2
  have hrest : (newlineEnds (o + a.length) b).countP (· ≤ o + a.length) = 0 :=
    List.countP_eq_zero.2 fun n hn => by simpa using (mem_newlineEnds hn).1
  rw [newlineEnds_append, List.countP_append, hfront, hrest, length_newlineEnds, Nat.add_zero]

/-- The line that is open after some bytes starts behind their last newline. -/
theorem getElem?_newlineEnds (a b : List UInt8) :
    (0 :: newlineEnds 0 (a ++ b))[a.count 10]? =
      some (a.length - (a.rtakeWhile (· ≠ 10)).length) := by
  induction a using List.reverseRecOn generalizing b with
  | nil => rfl
  | append_singleton x c ih =>
    rw [List.append_assoc, List.length_append, List.length_singleton, List.count_append]
    -- a newline opens the next line, any other byte leaves the same line open
    by_cases hc : c = 10
    · rw [List.rtakeWhile_concat_neg _ _ _ (by simpa using hc), hc, List.count_singleton_self,
        List.getElem?_cons_succ, newlineEnds_append,
        List.getElem?_append_right (by rw [length_newlineEnds]), length_newlineEnds, Nat.sub_self]
      simp [newlineEnds]
    · have hnone : [c].count 10 = 0 := List.count_eq_zero.2 (by simpa using Ne.symm hc)
      rw [List.rtakeWhile_concat_pos _ _ _ (by simpa using hc), List.length_append,
        List.length_singleton, Nat.add_sub_add_right, ← ih ([c] ++ b), hnone, Nat.add_zero]

/-! ### The index of a text -/

theorem newlineEnds_utf8EncodeChar (o : Nat) (c : Char) :
    newlineEnds o (String.utf8EncodeChar c) = if c = '\n' then [o + c.utf8Size] else [] := by
  split
  · next hc =>
    subst hc
    rfl
  · next hc =>
    rw [← List.length_eq_zero_iff, length_newlineEnds, count_utf8EncodeChar, if_neg hc]

/-- The index of characters is the index of their bytes. -/
theorem startsAfter_eq (o : Nat) (cs : List Char) : startsAfter o cs = newlineEnds o (utf8 cs) := by
  induction cs generalizing o with
  | nil => rfl
  | cons c r ih =>
    rw [startsAfter, utf8_cons, newlineEnds_append, newlineEnds_utf8EncodeChar,
      String.length_utf8EncodeChar]
    simp only [ih]
    split <;> rfl

theorem starts_ofText (text : String) :
    (ofText text).starts = 0 :: newlineEnds 0 (utf8 text.toList) := by
  rw [← startsAfter_eq]
  rfl

theorem length_utf8_toList (text : String) : (utf8 text.toList).length = text.utf8ByteSize := by
  rw [← toList_toUTF8, Array.length_toList]
  exact String.size_toByteArray

/-- The starts are in order. -/
theorem pairwise_starts (text : String) : (ofText text).starts.Pairwise (· < ·) := by
  rw [starts_ofText]
  exact .cons (fun n hn => (mem_newlineEnds hn).1) (pairwise_newlineEnds 0 _)

variable {text : String} {offset : Nat}

theorem length_take_utf8 (h : offset ≤ text.utf8ByteSize) :
    ((utf8 text.toList).take offset).length = offset :=
  List.length_take_of_le (length_utf8_toList text ▸ h)

theorem length_rtakeWhile_take_le (h : offset ≤ text.utf8ByteSize) :
    (((utf8 text.toList).take offset).rtakeWhile (· ≠ 10)).length ≤ offset := by
  have hle := (List.rtakeWhile_suffix (· ≠ 10) ((utf8 text.toList).take offset)).length_le
  rwa [length_take_utf8 h] at hle

/-- The line of an offset is the number of newlines before it. -/
theorem line_position_eq_count (h : offset ≤ text.utf8ByteSize) :
    ((ofText text).position offset).line = ((utf8 text.toList).take offset).count 10 := by
  have hordered : (ofText text).starts.Pairwise fun m n =>
      decide (n ≤ offset) = true → decide (m ≤ offset) = true := by
    refine (pairwise_starts text).imp fun hlt hn => ?_
    exact decide_eq_true (Nat.le_of_lt (Nat.lt_of_lt_of_le hlt (of_decide_eq_true hn)))
  have hcount := countP_newlineEnds 0 ((utf8 text.toList).take offset)
    ((utf8 text.toList).drop offset)
  rw [List.take_append_drop, length_take_utf8 h, Nat.zero_add] at hcount
  unfold position
  simp only []
  rw [partitionPoint_eq_countP hordered, starts_ofText, List.countP_cons_of_pos (by simp), hcount,
    Nat.add_sub_cancel]

/-- The line of an offset starts in the index, behind the last newline before the offset. -/
theorem getElem?_starts (h : offset ≤ text.utf8ByteSize) :
    (ofText text).starts[((ofText text).position offset).line]? =
      some (offset - (((utf8 text.toList).take offset).rtakeWhile (· ≠ 10)).length) := by
  have hstart := getElem?_newlineEnds ((utf8 text.toList).take offset)
    ((utf8 text.toList).drop offset)
  rw [List.take_append_drop, length_take_utf8 h] at hstart
  rw [line_position_eq_count h, starts_ofText, hstart]

/-- The column of an offset is the number of bytes behind the last newline before it. -/
theorem column_position_eq_length (h : offset ≤ text.utf8ByteSize) :
    ((ofText text).position offset).column =
      (((utf8 text.toList).take offset).rtakeWhile (· ≠ 10)).length := by
  have hle := length_rtakeWhile_take_le h
  have hcolumn : ((ofText text).position offset).column =
      offset - (ofText text).starts.getD ((ofText text).position offset).line 0 := rfl
  rw [hcolumn, List.getD_eq_getElem?_getD, getElem?_starts h, Option.getD_some]
  omega

theorem exists_start (h : offset ≤ text.utf8ByteSize) :
    ∃ start, (ofText text).starts[((ofText text).position offset).line]? = some start ∧
      start + ((ofText text).position offset).column = offset := by
  have hle := length_rtakeWhile_take_le h
  refine ⟨_, getElem?_starts h, ?_⟩
  rw [column_position_eq_length h]
  omega

/-- A later offset has a later position: it is on a later line, or further on the same one. -/
theorem position_lt_position {first second : Nat} (hlt : first < second)
    (h : second ≤ text.utf8ByteSize) :
    (ofText text).position first < (ofText text).position second := by
  have hfirst : first ≤ text.utf8ByteSize := Nat.le_trans (Nat.le_of_lt hlt) h
  have hle : ((ofText text).position first).line ≤ ((ofText text).position second).line := by
    rw [line_position_eq_count hfirst, line_position_eq_count h]
    exact (List.take_sublist_take_left (Nat.le_of_lt hlt)).count_le 10
  rcases Nat.lt_or_eq_of_le hle with hline | hline
  · exact .inl hline
  · obtain ⟨start, hstart, hcolumn⟩ := exists_start hfirst
    obtain ⟨start', hstart', hcolumn'⟩ := exists_start h
    obtain rfl : start = start' := Option.some.inj (by rw [← hstart, ← hstart', hline])
    exact .inr ⟨hline, by omega⟩

theorem le_of_mem_starts {start : Nat} (h : start ∈ (ofText text).starts) :
    start ≤ text.utf8ByteSize := by
  rw [starts_ofText] at h
  rcases List.mem_cons.1 h with rfl | h
  · exact Nat.zero_le _
  · rw [← length_utf8_toList, ← Nat.zero_add (utf8 text.toList).length]
    exact (mem_newlineEnds h).2

/-- The line of the offset of a character is the number of line breaks before it. -/
theorem line_position {pre post : List Char} (h : text.toList = pre ++ post) :
    ((ofText text).position (byteLength pre)).line = breaks pre := by
  have hbytes : utf8 text.toList = utf8 pre ++ utf8 post := by rw [h, utf8_append]
  have hle : byteLength pre ≤ text.utf8ByteSize := by
    rw [← length_utf8_toList, hbytes, List.length_append, length_utf8]
    exact Nat.le_add_right _ _
  rw [line_position_eq_count hle, hbytes, breaks_eq_count, ← length_utf8, List.take_left]

/-- **A line index is exact**: an offset up to the size of a text is on the line that counts the
newline bytes before it, in the column that counts the bytes behind the last of these.  The line
starts in the index, as far before the offset as the column says, and later offsets have later
positions.  No start is behind the end of the text, so an index fits where the size fits. -/
theorem position_exact (text : String) :
    (∀ offset ≤ text.utf8ByteSize,
      (ofText text).position offset =
        ⟨(text.toUTF8.data.toList.take offset).count 10,
          ((text.toUTF8.data.toList.take offset).rtakeWhile (· ≠ 10)).length⟩ ∧
      ∃ start, (ofText text).starts[((ofText text).position offset).line]? = some start ∧
        start + ((ofText text).position offset).column = offset) ∧
    (∀ first second, first < second → second ≤ text.utf8ByteSize →
      (ofText text).position first < (ofText text).position second) ∧
    ∀ start ∈ (ofText text).starts, start ≤ text.utf8ByteSize := by
  rw [toList_toUTF8]
  refine ⟨fun offset h => ⟨?_, exists_start h⟩, fun _ _ hlt h => position_lt_position hlt h,
    fun _ h => le_of_mem_starts h⟩
  exact Position.eq_iff.2 ⟨line_position_eq_count h, column_position_eq_length h⟩

/-- An offset inside a character of two bytes, and the offsets on either side of a newline that ends
an empty line. -/
theorem position_exact_accentedText :
    2 ≤ "aé\n\nb".utf8ByteSize ∧ (ofText "aé\n\nb").position 2 = ⟨0, 2⟩ ∧
      5 ≤ "aé\n\nb".utf8ByteSize ∧ (ofText "aé\n\nb").position 5 = ⟨2, 0⟩ ∧
      4 < 5 ∧ (ofText "aé\n\nb").position 4 < (ofText "aé\n\nb").position 5 ∧
      4 ∈ (ofText "aé\n\nb").starts ∧ 4 ≤ "aé\n\nb".utf8ByteSize := by
  obtain ⟨hexact, hordered, hstarts⟩ := position_exact "aé\n\nb"
  have hinside : 2 ≤ "aé\n\nb".utf8ByteSize := by decide
  have hbehind : 5 ≤ "aé\n\nb".utf8ByteSize := by decide
  have hmem : 4 ∈ (ofText "aé\n\nb").starts := by decide
  exact ⟨hinside, (hexact 2 hinside).1.trans (by decide), hbehind,
    (hexact 5 hbehind).1.trans (by decide), by decide, hordered 4 5 (by decide) hbehind, hmem,
    hstarts 4 hmem⟩

end SingleFile.LineIndex
