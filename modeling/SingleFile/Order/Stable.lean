/-!
# Stable sorting and first uses

`stableSort` orders a list and keeps the order of equal items, `firstUses` lists what occurs in a
list once, in the order of the first occurrence.
-/

namespace SingleFile

/-- Puts an item before the first one that is not below it. -/
def insertBy (le : α → α → Bool) (x : α) : List α → List α
  | [] => [x]
  | y :: rest => if le x y then x :: y :: rest else y :: insertBy le x rest

/-- Sorts a list; equal items keep their order. -/
def stableSort (le : α → α → Bool) (xs : List α) : List α := xs.foldr (insertBy le) []

theorem perm_insertBy (le : α → α → Bool) (x : α) (xs : List α) :
    (insertBy le x xs).Perm (x :: xs) := by
  induction xs with
  | nil => exact .refl _
  | cons y rest ih =>
    by_cases h : le x y = true
    · simp [insertBy, h]
    · simp only [insertBy, h]
      exact (ih.cons y).trans (.swap x y rest)

theorem perm_stableSort (le : α → α → Bool) (xs : List α) : (stableSort le xs).Perm xs := by
  induction xs with
  | nil => exact .refl _
  | cons x rest ih => exact (perm_insertBy le x _).trans (ih.cons x)

/-- What occurs in a list and not in `seen`, once, in the order of the first occurrence. -/
def firstUsesAfter [BEq α] (seen : List α) : List α → List α
  | [] => []
  | x :: rest =>
    if seen.contains x then firstUsesAfter seen rest else x :: firstUsesAfter (x :: seen) rest

/-- What occurs in a list, once, in the order of the first occurrence. -/
def firstUses [BEq α] (xs : List α) : List α := firstUsesAfter [] xs

end SingleFile
