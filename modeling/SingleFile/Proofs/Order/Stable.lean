import Mathlib.Data.List.Forall2
import Mathlib.Data.List.Perm.Subperm
import SingleFile.Order.Stable

/-!
# Sorted lists, first uses, places in a list, and lists in step

`stableSort` gives a sorted list (`pairwise_stableSort`) and leaves a sorted one alone
(`stableSort_of_pairwise`).  It commutes with `List.map` and, because equal items keep their order,
with `List.filter`.  `firstUses` lists all items of a list (`mem_firstUses`), each once
(`nodup_firstUsesAfter`), by their places (`pairwise_firstUses`).  `append_cons_cases` compares two places
in a list, and `exists_of_mem_forall₂` finds the counterpart of an item.
-/

namespace SingleFile

section Sorting

variable {α β : Type} {le : α → α → Bool}

theorem mem_stableSort {x : α} {xs : List α} : x ∈ stableSort le xs ↔ x ∈ xs :=
  (perm_stableSort le xs).mem_iff

theorem stableSort_cons (x : α) (xs : List α) :
    stableSort le (x :: xs) = insertBy le x (stableSort le xs) := rfl

theorem insertBy_of_forall {x : α} {xs : List α} (h : ∀ y ∈ xs, le x y = true) :
    insertBy le x xs = x :: xs := by
  cases xs with
  | nil => rfl
  | cons y ys => rw [insertBy, if_pos (h y List.mem_cons_self)]

/-- A sorted list stays as it is. -/
theorem stableSort_of_pairwise {xs : List α} (h : xs.Pairwise (fun x y => le x y = true)) :
    stableSort le xs = xs := by
  induction xs with
  | nil => rfl
  | cons x xs ih =>
    rw [List.pairwise_cons] at h
    rw [stableSort_cons, ih h.2, insertBy_of_forall h.1]

theorem map_insertBy {le' : β → β → Bool} {f : α → β} (hf : ∀ x y, le' (f x) (f y) = le x y) (x : α)
    (xs : List α) : (insertBy le x xs).map f = insertBy le' (f x) (xs.map f) := by
  induction xs with
  | nil => rfl
  | cons y ys ih =>
    rw [List.map_cons, insertBy, insertBy, hf]
    split
    · rfl
    · rw [List.map_cons, ih]

theorem map_stableSort {le' : β → β → Bool} {f : α → β} (hf : ∀ x y, le' (f x) (f y) = le x y)
    (xs : List α) : (stableSort le xs).map f = stableSort le' (xs.map f) := by
  induction xs with
  | nil => rfl
  | cons x xs ih => rw [stableSort_cons, map_insertBy hf, ih, List.map_cons, stableSort_cons]

variable (htotal : ∀ x y, le x y = true ∨ le y x = true)
  (htrans : ∀ x y z, le x y = true → le y z = true → le x z = true)

include htotal htrans

theorem pairwise_insertBy {x : α} {xs : List α} (h : xs.Pairwise (fun x y => le x y = true)) :
    (insertBy le x xs).Pairwise (fun x y => le x y = true) := by
  induction xs with
  | nil => simp [insertBy]
  | cons y ys ih =>
    rw [List.pairwise_cons] at h
    rw [insertBy]
    split
    · next hxy =>
      rw [List.pairwise_cons, List.pairwise_cons]
      refine ⟨fun z hz => ?_, h⟩
      rcases List.mem_cons.1 hz with rfl | hz
      · exact hxy
      · exact htrans x y z hxy (h.1 z hz)
    · next hxy =>
      rw [List.pairwise_cons]
      refine ⟨fun z hz => ?_, ih h.2⟩
      rcases List.mem_cons.1 ((perm_insertBy le x ys).mem_iff.1 hz) with rfl | hz
      · exact (htotal y z).resolve_right hxy
      · exact h.1 z hz

theorem pairwise_stableSort (xs : List α) :
    (stableSort le xs).Pairwise (fun x y => le x y = true) := by
  induction xs with
  | nil => exact .nil
  | cons x xs ih => exact pairwise_insertBy htotal htrans ih

omit htotal in
theorem filter_insertBy (p : α → Bool) (x : α) {xs : List α}
    (h : xs.Pairwise (fun x y => le x y = true)) :
    (insertBy le x xs).filter p =
      if p x then insertBy le x (xs.filter p) else xs.filter p := by
  induction xs with
  | nil => by_cases hx : p x <;> simp [insertBy, hx]
  | cons y ys ih =>
    rw [List.pairwise_cons] at h
    rw [insertBy]
    split
    · next hxy =>
      by_cases hx : p x = true
      · have hall : ∀ z ∈ (y :: ys).filter p, le x z = true := by
          intro z hz
          rcases List.mem_cons.1 (List.mem_filter.1 hz).1 with rfl | hz
          · exact hxy
          · exact htrans x y z hxy (h.1 z hz)
        rw [List.filter_cons_of_pos hx, if_pos hx, insertBy_of_forall hall]
      · rw [List.filter_cons_of_neg hx, if_neg hx]
    · next hxy =>
      by_cases hy : p y = true
      · rw [List.filter_cons_of_pos hy, List.filter_cons_of_pos hy, ih h.2]
        by_cases hx : p x = true
        · rw [if_pos hx, if_pos hx, insertBy, if_neg hxy]
        · rw [if_neg hx, if_neg hx]
      · rw [List.filter_cons_of_neg hy, List.filter_cons_of_neg hy, ih h.2]

/-- Equal items keep their order, so a part of a list may be taken before or after sorting. -/
theorem filter_stableSort (p : α → Bool) (xs : List α) :
    (stableSort le xs).filter p = stableSort le (xs.filter p) := by
  induction xs with
  | nil => rfl
  | cons x xs ih =>
    rw [stableSort_cons, filter_insertBy htrans p x (pairwise_stableSort htotal htrans xs), ih]
    by_cases hx : p x = true
    · rw [if_pos hx, List.filter_cons_of_pos hx, stableSort_cons]
    · rw [if_neg hx, List.filter_cons_of_neg hx]

end Sorting

section Places

variable {α : Type}

/-- In a list whose items are related in order, each item is related to those behind it. -/
theorem rel_of_pairwise {R : α → α → Prop} {x y z : List α} {l m : α}
    (h : (x ++ l :: (y ++ m :: z)).Pairwise R) : R l m := by
  rw [List.pairwise_append, List.pairwise_cons] at h
  exact h.2.1.1 m (by simp)

/-- Of two items of a list, one stands before the other. -/
theorem append_cons_cases {a b x y : List α} {l m : α} (h : a ++ l :: x = b ++ m :: y) :
    (a = b ∧ l = m) ∨ (∃ between, b = a ++ l :: between) ∨ ∃ between, a = b ++ m :: between := by
  rcases List.append_eq_append_iff.1 h with ⟨between, hb, htail⟩ | ⟨between, ha, htail⟩
  · cases between with
    | nil => exact .inl ⟨by simpa using hb.symm, (List.cons.inj htail).1⟩
    | cons z between =>
      rw [(List.cons.inj htail).1]
      exact .inr (.inl ⟨between, hb⟩)
  · cases between with
    | nil => exact .inl ⟨by simpa using ha, (List.cons.inj htail).1.symm⟩
    | cons z between =>
      rw [(List.cons.inj htail).1]
      exact .inr (.inr ⟨between, ha⟩)

end Places

/-- Of two lists in step, each item of the one has its counterpart in the other. -/
theorem exists_of_mem_forall₂ {α β : Type} {R : α → β → Prop} {xs : List α} {ys : List β}
    (h : List.Forall₂ R xs ys) {x : α} (hx : x ∈ xs) : ∃ y ∈ ys, R x y := by
  induction h with
  | nil => cases hx
  | cons hxy _ ih =>
    rcases List.mem_cons.1 hx with rfl | hx
    · exact ⟨_, List.mem_cons_self, hxy⟩
    · obtain ⟨y, hy, hxy⟩ := ih hx
      exact ⟨y, List.mem_cons_of_mem _ hy, hxy⟩

/-! ### First uses -/

section FirstUses

variable {α : Type} [BEq α] [LawfulBEq α]

theorem mem_firstUsesAfter {x : α} {seen xs : List α} :
    x ∈ firstUsesAfter seen xs ↔ x ∈ xs ∧ x ∉ seen := by
  induction xs generalizing seen with
  | nil => simp [firstUsesAfter]
  | cons y ys ih =>
    rw [firstUsesAfter]
    split
    · next h =>
      have hy : y ∈ seen := by simpa using h
      rw [ih, List.mem_cons]
      constructor
      · rintro ⟨hx, hs⟩
        exact ⟨.inr hx, hs⟩
      · rintro ⟨rfl | hx, hs⟩
        · exact absurd hy hs
        · exact ⟨hx, hs⟩
    · next h =>
      have hy : y ∉ seen := by simpa using h
      rw [List.mem_cons, ih, List.mem_cons, List.mem_cons]
      constructor
      · rintro (rfl | ⟨hx, hs⟩)
        · exact ⟨.inl rfl, hy⟩
        · exact ⟨.inr hx, fun hm => hs (.inr hm)⟩
      · rintro ⟨rfl | hx, hs⟩
        · exact .inl rfl
        · by_cases hxy : x = y
          · exact .inl hxy
          · exact .inr ⟨hx, fun hm => hm.elim hxy hs⟩

theorem mem_firstUses {x : α} {xs : List α} : x ∈ firstUses xs ↔ x ∈ xs := by
  rw [firstUses, mem_firstUsesAfter]
  simp

theorem nodup_firstUsesAfter (seen xs : List α) : (firstUsesAfter seen xs).Nodup := by
  induction xs generalizing seen with
  | nil => exact .nil
  | cons x xs ih =>
    rw [firstUsesAfter]
    split
    · exact ih seen
    · refine List.nodup_cons.2 ⟨fun h => ?_, ih _⟩
      exact (mem_firstUsesAfter.1 h).2 List.mem_cons_self

theorem length_firstUses_le {xs ys : List α} (h : ∀ x ∈ xs, x ∈ ys) :
    (firstUses xs).length ≤ ys.length :=
  ((nodup_firstUsesAfter [] xs).subperm fun x hx => h x (mem_firstUses.1 hx)).length_le

theorem firstUsesAfter_eq_nil {seen xs : List α} (h : ∀ x ∈ xs, x ∈ seen) :
    firstUsesAfter seen xs = [] := by
  rw [List.eq_nil_iff_forall_not_mem]
  intro x hx
  obtain ⟨hmem, hnot⟩ := mem_firstUsesAfter.1 hx
  exact hnot (h x hmem)

/-- What is used alone is listed once. -/
theorem firstUses_eq_singleton {x : α} {xs : List α} (hne : xs ≠ [])
    (h : ∀ y ∈ xs, y = x) : firstUses xs = [x] := by
  obtain ⟨y, ys, rfl⟩ := List.exists_cons_of_ne_nil hne
  have hnil : firstUsesAfter [y] ys = [] := by
    apply firstUsesAfter_eq_nil
    intro z hz
    rw [h z (List.mem_cons_of_mem y hz), h y List.mem_cons_self]
    exact List.mem_cons_self
  have hfirst : firstUses (y :: ys) = y :: firstUsesAfter [y] ys := rfl
  rw [hfirst, hnil, h y List.mem_cons_self]

/-- What is used later but not for the first time adds nothing. -/
theorem firstUsesAfter_append {seen xs ys : List α} (h : ∀ y ∈ ys, y ∈ seen ∨ y ∈ xs) :
    firstUsesAfter seen (xs ++ ys) = firstUsesAfter seen xs := by
  induction xs generalizing seen with
  | nil =>
    rw [List.nil_append, firstUsesAfter_eq_nil]
    · rfl
    · intro y hy
      simpa using h y hy
  | cons x xs ih =>
    rw [List.cons_append, firstUsesAfter, firstUsesAfter]
    split
    · next hx =>
      apply ih
      intro y hy
      rcases h y hy with hseen | hmem
      · exact .inl hseen
      · rcases List.mem_cons.1 hmem with rfl | hmem
        · exact .inl (List.contains_iff_mem.1 hx)
        · exact .inr hmem
    · rw [ih]
      intro y hy
      rcases h y hy with hseen | hmem
      · exact .inl (List.mem_cons_of_mem x hseen)
      · rcases List.mem_cons.1 hmem with rfl | hmem
        · exact .inl List.mem_cons_self
        · exact .inr hmem

theorem pairwise_firstUsesAfter (seen xs : List α) :
    (firstUsesAfter seen xs).Pairwise fun x y => xs.idxOf x < xs.idxOf y := by
  induction xs generalizing seen with
  | nil => exact .nil
  | cons x xs ih =>
    -- behind the first item all places are one later
    have hlater (seen' : List α) (hx : x ∈ seen') :
        (firstUsesAfter seen' xs).Pairwise fun y z => (x :: xs).idxOf y < (x :: xs).idxOf z := by
      refine (ih seen').imp_of_mem ?_
      intro y z hy hz hlt
      have hxy : x ≠ y := fun h => (mem_firstUsesAfter.1 hy).2 (h ▸ hx)
      have hxz : x ≠ z := fun h => (mem_firstUsesAfter.1 hz).2 (h ▸ hx)
      rw [List.idxOf_cons_ne _ hxy, List.idxOf_cons_ne _ hxz]
      exact Nat.succ_lt_succ hlt
    rw [firstUsesAfter]
    split
    · next hseen => exact hlater seen (List.contains_iff_mem.1 hseen)
    · refine List.pairwise_cons.2 ⟨?_, hlater (x :: seen) List.mem_cons_self⟩
      intro y hy
      have hxy : x ≠ y := fun h => (mem_firstUsesAfter.1 hy).2 (h ▸ List.mem_cons_self)
      rw [List.idxOf_cons_self, List.idxOf_cons_ne _ hxy]
      exact Nat.succ_pos _

/-- First uses come in the order of their places. -/
theorem pairwise_firstUses (xs : List α) :
    (firstUses xs).Pairwise fun x y => xs.idxOf x < xs.idxOf y := pairwise_firstUsesAfter [] xs

end FirstUses

end SingleFile
