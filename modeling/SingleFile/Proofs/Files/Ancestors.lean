import SingleFile.Proofs.Files.Path

/-!
# The paths above a path

`Path.ancestors` counts down the length of the path, since every path above is shorter
(`length_lt_of_parent?`).  So its list is never cut short: it goes up step by step and ends where
nothing is above (`above_ancestors`).  The first section is about what a path put behind one of them
adds to its parts (`parts_join`).
-/

namespace SingleFile.Path

/-! ### Parts of a longer path -/

theorem parts_eq_inner (path : List Char) :
    parts path = (if isAbsolute path then [.root]
      else if (splitAt '/' path).head? = some ['.'] then [.here] else []) ++ inner path := by
  unfold parts
  dsimp only
  split
  · rfl
  · split <;> rfl

theorem head?_splitAt_append_slash (a b : List Char) :
    (splitAt '/' (a ++ '/' :: b)).head? = (splitAt '/' a).head? := by
  obtain ⟨piece, pieces, h⟩ := List.exists_cons_of_ne_nil (splitAt_ne_nil '/' a)
  rw [splitAt_append_sep, h]
  rfl

theorem head?_splitAt_join {base added : List Char} (hne : base ≠ []) (h : isAbsolute added = false) :
    (splitAt '/' (join base added)).head? = (splitAt '/' base).head? := by
  unfold join
  rw [h, if_neg (by simp)]
  split
  · next hbase =>
    rcases List.eq_nil_or_concat base with rfl | ⟨front, c, rfl⟩
    · exact absurd rfl hne
    · obtain rfl : c = '/' := by simpa using hbase
      rw [List.concat_eq_append, List.append_assoc, List.singleton_append,
        head?_splitAt_append_slash, head?_splitAt_append_slash]
  · exact head?_splitAt_append_slash base added

/-- A path that is not absolute adds its parts to those of the path in front of it. -/
theorem parts_join {base added : List Char} (hne : base ≠ []) (h : isAbsolute added = false) :
    parts (join base added) = parts base ++ inner added := by
  rw [parts_eq_inner, parts_eq_inner base, isAbsolute_join, h, Bool.false_or,
    head?_splitAt_join hne h, inner_join h, List.append_assoc]

theorem join_ne_nil {base added : List Char} (h : base ≠ [] ∨ added ≠ []) : join base added ≠ [] := by
  unfold join
  split
  · next habs =>
    rintro rfl
    cases habs
  · split
    · rcases h with h | h <;> simp [h]
    · simp

/-! ### Going up -/

theorem intercalate_splitAt (path : List Char) : List.intercalate ['/'] (splitAt '/' path) = path := by
  induction path with
  | nil => rfl
  | cons c r ih =>
    obtain ⟨piece, pieces, hr⟩ := List.exists_cons_of_ne_nil (splitAt_ne_nil '/' r)
    rw [hr, intercalate_cons] at ih
    by_cases hc : c = '/'
    · rw [splitAt, if_pos hc, hr, intercalate_cons, List.flatMap_cons, List.nil_append,
        List.cons_append, ih, hc]
    · rw [splitAt, if_neg hc, hr]
      dsimp only
      rw [intercalate_cons, List.cons_append, ih]

theorem length_intercalate_le (front back : List (List Char)) :
    (List.intercalate ['/'] front).length ≤ (List.intercalate ['/'] (front ++ back)).length := by
  cases front with
  | nil => exact Nat.zero_le _
  | cons first front =>
    rw [List.cons_append, intercalate_cons, intercalate_cons, List.flatMap_append, ← List.append_assoc]
    exact (List.prefix_append _ _).length_le

/-- Segments in front of one that is not empty have a shorter text. -/
theorem length_intercalate_lt (front back : List (List Char)) {segment : List Char}
    (h : segment ≠ []) : (List.intercalate ['/'] front).length <
      (List.intercalate ['/'] (front ++ segment :: back)).length := by
  have hpos := List.length_pos_iff.2 h
  cases front with
  | nil =>
    rw [List.nil_append, intercalate_cons, List.length_append]
    exact Nat.lt_add_right _ hpos
  | cons first front =>
    rw [List.cons_append, intercalate_cons, intercalate_cons, List.flatMap_append, List.flatMap_cons]
    simp only [List.length_append, List.length_cons]
    omega

theorem dropSilent_ne_nil {absolute : Bool} {segments before : List (List Char)} {segment : List Char}
    (h : dropSilent absolute segments = segment :: before) : segment ≠ [] := by
  fun_induction dropSilent absolute segments with
  | case1 => cases h
  | case2 first hfirst => cases h
  | case3 first hfirst =>
    obtain ⟨rfl, -⟩ := List.cons.inj h
    exact fun hnil => hfirst (.inl hnil)
  | case4 segment before _ hsilent ih => exact ih h
  | case5 segment before _ hsilent =>
    obtain ⟨rfl, -⟩ := List.cons.inj h
    exact fun hnil => hsilent (.inl hnil)

theorem length_body (path : List Char) :
    path.length = (if isAbsolute path then 1 else 0) + (body path).length := by
  unfold body
  split
  · next habs =>
    cases path with
    | nil => cases habs
    | cons c r => simp [Nat.add_comm]
  · rw [Nat.zero_add]

/-- Every path above is shorter. -/
theorem length_lt_of_parent? {path above : List Char} (h : parent? path = some above) :
    above.length < path.length := by
  unfold parent? at h
  dsimp only at h
  split at h
  · cases h
  · next segment before hdrop =>
    obtain ⟨back, hback⟩ := dropSilent_suffix (isAbsolute path) (backwards path)
    obtain ⟨silent, hsilent⟩ := dropSilent_suffix (isAbsolute path) before
    have hbefore : before.reverse =
        (dropSilent (isAbsolute path) before).reverse ++ silent.reverse := by
      rw [← List.reverse_append, hsilent]
    have hsegments : splitAt '/' (body path) = before.reverse ++ segment :: back.reverse := by
      rw [hdrop] at hback
      have hreverse := congrArg List.reverse hback
      rw [backwards, List.reverse_reverse, List.reverse_append, List.reverse_cons,
        List.append_assoc] at hreverse
      exact hreverse.symm
    have hle := length_intercalate_le (dropSilent (isAbsolute path) before).reverse silent.reverse
    have hlt := length_intercalate_lt before.reverse back.reverse (dropSilent_ne_nil hdrop)
    rw [← hbefore] at hle
    rw [← hsegments, intercalate_splitAt] at hlt
    have hpath := length_body path
    obtain rfl := Option.some.inj h
    unfold ofBackwards
    cases habs : isAbsolute path with
    | true =>
      rw [habs] at hpath hle
      simp only [if_true, List.length_cons] at hpath ⊢
      omega
    | false =>
      rw [habs] at hpath hle
      simp only [Bool.false_eq_true, if_false] at hpath ⊢
      omega

/-- A path and the paths above it up to one that has none, in order. -/
inductive Above : List Char → List (List Char) → Prop
  | top {path : List Char} : parent? path = none → Above path [path]
  | step {path above : List Char} {more : List (List Char)} :
      parent? path = some above → Above above more → Above path (path :: more)

theorem above_ancestorsFrom {fuel : Nat} {path : List Char} (h : path.length ≤ fuel) :
    Above path (ancestorsFrom fuel path) := by
  induction fuel generalizing path with
  | zero =>
    obtain rfl := List.length_eq_zero_iff.1 (Nat.le_zero.1 h)
    exact .top rfl
  | succ fuel ih =>
    unfold ancestorsFrom
    cases hparent : parent? path with
    | none => exact .top hparent
    | some above =>
      exact .step hparent (ih (Nat.le_of_lt_succ (length_lt_of_parent? hparent |>.trans_le h)))

/-- All paths above are listed. -/
theorem above_ancestors (path : List Char) : Above path (ancestors path) :=
  above_ancestorsFrom le_rfl

end SingleFile.Path
