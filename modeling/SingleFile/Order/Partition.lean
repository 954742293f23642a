/-!
# Partition points

A list is partitioned by a test where the entries that pass it come first.  `partitionPoint` finds
the place where the others begin by halving the range in which it lies;
`partitionPoint_eq_countP` says that this is the number of the entries that pass.
-/

namespace SingleFile

/-- Halves a range of places until nothing is left of it: `pass` says whether the point lies behind
a place. -/
def bisect (pass : Nat → Bool) (low high : Nat) : Nat :=
  if low < high then
    let middle := (low + high) / 2
    if pass middle then bisect pass (middle + 1) high else bisect pass low middle
  else low
termination_by high - low

/-- The place of the first entry that fails a test, where the entries that pass it come first. -/
def partitionPoint (pass : α → Bool) (xs : List α) : Nat :=
  bisect (fun i => xs[i]?.any pass) 0 xs.length

/-- Halving finds the point, from every range in which it lies. -/
theorem bisect_eq {pass : Nat → Bool} {low high point : Nat} (hlow : low ≤ point)
    (hhigh : point ≤ high) (h : ∀ i < high, pass i = true ↔ i < point) :
    bisect pass low high = point := by
  induction low, high using bisect.induct pass with
  | case1 low high hlt middle hpass ih =>
    have hmiddle : middle < high := by omega
    rw [bisect, if_pos hlt, if_pos hpass]
    exact ih ((h middle hmiddle).1 hpass) hhigh h
  | case2 low high hlt middle hpass ih =>
    have hmiddle : middle < high := by omega
    have hpoint : point ≤ middle := Nat.le_of_not_lt fun hlt => hpass ((h middle hmiddle).2 hlt)
    rw [bisect, if_pos hlt, if_neg hpass]
    exact ih hlow hpoint fun i hi => h i (Nat.lt_trans hi hmiddle)
  | case3 low high hlt =>
    rw [bisect, if_neg hlt]
    omega

/-- Of the entries of a partitioned list those pass whose place is below the number of such. -/
theorem any_getElem?_iff {pass : α → Bool} {xs : List α}
    (h : xs.Pairwise fun x y => pass y = true → pass x = true) {i : Nat} (hi : i < xs.length) :
    xs[i]?.any pass = true ↔ i < xs.countP pass := by
  induction xs generalizing i with
  | nil => simp at hi
  | cons x r ih =>
    obtain ⟨hfirst, hrest⟩ := List.pairwise_cons.1 h
    by_cases hx : pass x = true
    · rw [List.countP_cons_of_pos hx]
      cases i with
      | zero => simp [hx]
      | succ i =>
        rw [List.getElem?_cons_succ, ih hrest (Nat.lt_of_succ_lt_succ hi), Nat.succ_lt_succ_iff]
    · -- after an entry that fails, none passes
      have hnone : ∀ y ∈ x :: r, ¬ pass y = true := by
        intro y hy
        rcases List.mem_cons.1 hy with rfl | hy
        · exact hx
        · exact fun hpass => hx (hfirst y hy hpass)
      rw [List.countP_eq_zero.2 hnone, List.getElem?_eq_getElem hi, Option.any_some]
      simpa using hnone _ (List.getElem_mem hi)

theorem partitionPoint_eq_countP {pass : α → Bool} {xs : List α}
    (h : xs.Pairwise fun x y => pass y = true → pass x = true) :
    partitionPoint pass xs = xs.countP pass :=
  bisect_eq (Nat.zero_le _) List.countP_le_length fun _ hi => any_getElem?_iff h hi

end SingleFile
