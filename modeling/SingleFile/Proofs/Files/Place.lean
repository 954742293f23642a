import SingleFile.Files.Store
import SingleFile.Proofs.Files.Path

/-!
# Where paths lead

A path leads from a place, told by its names from the root, to another place (`target`); that is the
place at which a file is looked for, if all directories on the way are there (`target_of_resolve`).
`Leaves` says what is left of the parts of a path when each `..` takes back the nearest name before
it that is not taken back yet: the number of those that find none, and the names that stay.

Normalizing keeps the names, but a `..` that is kept counts as a part to take back, so that of `k`
kept ones only `k % 2` are left (`parts_normalize`).  A normalized path leads to the same place as
before just when it is absolute or `k` is at most one (`target_normalize_iff`), and so does what a
reference means, told from the place of a file (**`relativeTo_exact`**).
-/

namespace SingleFile.Path

/-! ### Places -/

/-- The place that a part leads to; above the root there is the root. -/
def Part.leads (place : List (List Char)) : Part → List (List Char)
  | root => []
  | here => place
  | up => place.dropLast
  | name cs => place ++ [cs]

/-- The place that a path leads to. -/
def target (base : List (List Char)) (path : List Char) : List (List Char) :=
  (parts path).foldl Part.leads base

theorem placeOf_eq_target (files : Files) (path : List Char) :
    files.placeOf path = target files.home path := by
  refine congrArg (fun f => (parts path).foldl f files.home) (funext fun place => funext fun p => ?_)
  cases p <;> rfl

theorem target_eq (base : List (List Char)) (path : List Char) :
    target base path = (inner path).foldl Part.leads (if isAbsolute path then [] else base) := by
  unfold target
  rcases parts_eq path with hparts | ⟨hparts, habs⟩
  · rw [hparts, List.foldl_append]
    cases isAbsolute path <;> rfl
  · rw [hparts, habs]
    rfl

theorem target_join (base : List (List Char)) (a b : List Char) :
    target base (join a b) = target (target base a) b := by
  cases hb : isAbsolute b with
  | true =>
    have hjoin : join a b = b := by rw [join, if_pos hb]
    rw [hjoin, target_eq, target_eq, hb]
    rfl
  | false =>
    rw [target_eq, target_eq, target_eq, isAbsolute_join, hb, inner_join hb, List.foldl_append,
      Bool.false_or]
    rfl

/-- The place above a file is its place without its name. -/
theorem target_of_fileName? {path name : List Char} (h : fileName? path = some name)
    (base : List (List Char)) : target base path = target base (parent path) ++ [name] := by
  obtain ⟨habs, hinner⟩ := parent_of_fileName? h
  rw [target_eq, target_eq, hinner, List.foldl_append, habs]
  rfl

/-- A part that can be followed leads to where it is said to lead. -/
theorem leads_of_follow {files : Files} {place next : List (List Char)} {p : Part}
    (h : files.follow place p = .ok next) : p.leads place = next := by
  unfold Files.follow at h
  split at h
  · cases h
  · cases p with
    | name cs =>
      dsimp only at h
      split at h
      · cases h
      · split at h
        · exact Except.ok.inj h
        · cases h
    | _ => exact Except.ok.inj h

/-- Where a path can be followed part by part, it leads to its target. -/
theorem target_of_resolve {files : Files} {path : List Char} {place : List (List Char)}
    (h : files.resolve path = .ok place) : target files.home path = place := by
  have hfold : ∀ (ps : List Part) (start : List (List Char)),
      ps.foldlM files.follow start = .ok place → ps.foldl Part.leads start = place := by
    intro ps
    induction ps with
    | nil => exact fun start hstart => Except.ok.inj hstart
    | cons p ps ih =>
      intro start hstart
      rw [List.foldlM_cons] at hstart
      cases hp : files.follow start p with
      | error cause =>
        rw [hp] at hstart
        cases hstart
      | ok next =>
        rw [hp] at hstart
        rw [List.foldl_cons, leads_of_follow hp]
        exact ih next hstart
  refine hfold _ _ ?_
  cases hplace : (parts path).foldlM files.follow files.home with
  | error cause =>
    simp only [Files.resolve, hplace, bind, Except.bind, throw, throwThe, MonadExceptOf.throw] at h
    split_ifs at h
  | ok found =>
    simp only [Files.resolve, hplace, bind, Except.bind, throw, throwThe, MonadExceptOf.throw] at h
    split_ifs at h
    exact h

/-! ### What parts leave -/

/-- Parts where every name is taken back by a `..` behind it, and every `..` takes back a name. -/
inductive Cancelled : List Part → Prop
  | nil : Cancelled []
  | pair (cs : List Char) {ps qs : List Part} :
      Cancelled ps → Cancelled qs → Cancelled (.name cs :: (ps ++ .up :: qs))

/-- What is left of parts: the number of those `..` that find no name to take back, and the names
that no `..` takes back. -/
inductive Leaves : List Part → Nat → List (List Char) → Prop
  | done {ps : List Part} : Cancelled ps → Leaves ps 0 []
  | up {ps qs : List Part} {k : Nat} {names : List (List Char)} :
      Cancelled ps → Leaves qs k names → Leaves (ps ++ .up :: qs) (k + 1) names
  | name (cs : List Char) {ps qs : List Part} {names : List (List Char)} :
      Cancelled ps → Leaves qs 0 names → Leaves (ps ++ .name cs :: qs) 0 (cs :: names)

theorem Cancelled.append {ps qs : List Part} (h : Cancelled ps) (g : Cancelled qs) :
    Cancelled (ps ++ qs) := by
  induction h with
  | nil => exact g
  | pair cs hps _ _ ih =>
    rw [List.cons_append, List.append_assoc, List.cons_append]
    exact .pair cs hps ih

namespace Leaves

variable {ps : List Part} {k : Nat} {names : List (List Char)}

theorem snoc_name (cs : List Char) (h : Leaves ps k names) :
    Leaves (ps ++ [.name cs]) k (names ++ [cs]) := by
  induction h with
  | done hps => exact .name cs hps (.done .nil)
  | up hps _ ih =>
    rw [List.append_assoc, List.cons_append]
    exact .up hps ih
  | name ds hps _ ih =>
    rw [List.append_assoc, List.cons_append]
    exact .name ds hps ih

theorem cancelled (h : Leaves ps 0 []) : Cancelled ps := by
  cases h with
  | done hps => exact hps

/-- One more `..` takes back the last name, or is one more that finds none. -/
theorem snoc_up (h : Leaves ps k names) :
    Leaves (ps ++ [.up]) (if names = [] then k + 1 else k) names.dropLast := by
  induction h with
  | done hps => exact .up hps (.done .nil)
  | @up ps qs k names hps _ ih =>
    rw [List.append_assoc, List.cons_append]
    have hcount : (if names = [] then k + 1 + 1 else k + 1) = (if names = [] then k + 1 else k) + 1 := by
      split <;> rfl
    rw [hcount]
    exact .up hps ih
  | @name cs ps qs names hps hqs ih =>
    rw [if_neg (List.cons_ne_nil cs names), List.append_assoc, List.cons_append]
    by_cases hnames : names = []
    · subst hnames
      exact .done (hps.append (.pair cs hqs.cancelled .nil))
    · rw [if_neg hnames] at ih
      rw [List.dropLast_cons_of_ne_nil hnames]
      exact .name cs hps ih

end Leaves

/-- The names that stay are parts. -/
theorem Leaves.mem {ps : List Part} {k : Nat} {names : List (List Char)} (h : Leaves ps k names)
    {cs : List Char} (hcs : cs ∈ names) : .name cs ∈ ps := by
  induction h with
  | done => cases hcs
  | up _ _ ih => exact List.mem_append_right _ (List.mem_cons_of_mem _ (ih hcs))
  | name ds _ _ ih =>
    rcases List.mem_cons.1 hcs with rfl | hcs
    · exact List.mem_append_right _ List.mem_cons_self
    · exact List.mem_append_right _ (List.mem_cons_of_mem _ (ih hcs))

/-- Parts of which nothing is taken back. -/
theorem leaves_replicate_append (k : Nat) (names : List (List Char)) :
    Leaves (List.replicate k .up ++ names.map .name) k names := by
  induction k with
  | zero =>
    induction names with
    | nil => exact .done .nil
    | cons cs names ih => exact .name cs .nil ih
  | succ k ih => exact .up .nil ih

theorem exists_leaves {ps : List Part} (h : ∀ p ∈ ps, p.IsInner) : ∃ k names, Leaves ps k names := by
  induction ps using List.reverseRecOn with
  | nil => exact ⟨0, [], .done .nil⟩
  | append_singleton ps p ih =>
    obtain ⟨k, names, hps⟩ := ih fun q hq => h q (List.mem_append_left _ hq)
    have hp := h p (List.mem_append_right ps List.mem_cons_self)
    cases p with
    | root => exact absurd List.mem_cons_self hp.2
    | here => exact absurd rfl hp.chars_ne_dot
    | up => exact ⟨_, _, hps.snoc_up⟩
    | name cs => exact ⟨_, _, hps.snoc_name cs⟩

theorem exists_leaves_inner (path : List Char) : ∃ k names, Leaves (inner path) k names :=
  exists_leaves fun _ hp => isInner_of_mem hp

/-! ### Where they lead -/

theorem Cancelled.leads {ps : List Part} (h : Cancelled ps) (base : List (List Char)) :
    ps.foldl Part.leads base = base := by
  induction h generalizing base with
  | nil => rfl
  | pair cs _ _ ihps ihqs =>
    rw [List.foldl_cons, List.foldl_append, ihps, List.foldl_cons, ihqs]
    exact List.dropLast_concat

/-- Parts lead up as often as a `..` finds nothing to take back, and then down the names. -/
theorem Leaves.leads {ps : List Part} {k : Nat} {names : List (List Char)} (h : Leaves ps k names)
    (base : List (List Char)) :
    ps.foldl Part.leads base = base.take (base.length - k) ++ names := by
  induction h generalizing base with
  | done hps => rw [hps.leads, Nat.sub_zero, List.take_length, List.append_nil]
  | @up ps qs k names hps _ ih =>
    have htake : base.dropLast.take (base.dropLast.length - k) = base.take (base.length - (k + 1)) := by
      rw [List.dropLast_eq_take, List.take_take, List.length_take]
      congr 1
      omega
    rw [List.foldl_append, hps.leads, List.foldl_cons, ih]
    show base.dropLast.take (base.dropLast.length - k) ++ names = _
    rw [htake]
  | name cs hps _ ih =>
    rw [List.foldl_append, hps.leads, List.foldl_cons, ih, Nat.sub_zero, Nat.sub_zero,
      List.take_length, List.take_length]
    show base ++ [cs] ++ _ = _
    rw [List.append_assoc, List.singleton_append]

/-! ### What normalizing makes of them -/

theorem Cancelled.normalStep {ps : List Part} (h : Cancelled ps) (before : List Part) :
    ps.foldl normalStep before = before := by
  induction h generalizing before with
  | nil => rfl
  | pair cs _ _ ihps ihqs =>
    rw [List.foldl_cons, List.foldl_append, ihps, List.foldl_cons, ihqs]
    rfl

/-- Where no `..` is left, names are put behind what there is. -/
theorem Leaves.normalStep_names {ps : List Part} {names : List (List Char)} (h : Leaves ps 0 names)
    (before : List Part) :
    ps.foldl normalStep before = (names.map Part.name).reverse ++ before := by
  generalize hk : 0 = k at h
  induction h generalizing before with
  | done hps => exact hps.normalStep before
  | up => cases hk
  | name cs hps _ ih =>
    rw [List.foldl_append, hps.normalStep, List.foldl_cons, ih _ rfl, List.map_cons,
      List.reverse_cons, List.append_assoc]
    rfl

/-- A `..` that finds no name takes back the one before it that is kept, if there is one. -/
theorem normalStep_up (absolute : Bool) (j : Nat) :
    normalStep (List.replicate (j % 2) .up ++ lead absolute) .up =
      List.replicate ((j + 1) % 2) .up ++ lead absolute := by
  rcases Nat.mod_two_eq_zero_or_one j with hj | hj
  · have hnext : (j + 1) % 2 = 1 := by omega
    rw [hj, hnext]
    cases absolute <;> rfl
  · have hnext : (j + 1) % 2 = 0 := by omega
    rw [hj, hnext]
    cases absolute <;> rfl

theorem Leaves.normalStep {ps : List Part} {k : Nat} {names : List (List Char)}
    (h : Leaves ps k names) (absolute : Bool) (j : Nat) :
    ps.foldl normalStep (List.replicate (j % 2) .up ++ lead absolute) =
      (names.map Part.name).reverse ++ (List.replicate ((j + k) % 2) .up ++ lead absolute) := by
  induction h generalizing j with
  | done hps => exact hps.normalStep _
  | @up ps qs k names hps _ ih =>
    have hcount : j + 1 + k = j + (k + 1) := by omega
    rw [List.foldl_append, hps.normalStep, List.foldl_cons, normalStep_up, ih, hcount]
  | name cs hps hqs =>
    exact (Leaves.name cs hps hqs).normalStep_names _

theorem reverse_lead (absolute : Bool) : (lead absolute).reverse = lead absolute := by
  cases absolute <;> rfl

theorem foldl_parts (path : List Char) :
    (parts path).foldl normalStep [] = (inner path).foldl normalStep (lead (isAbsolute path)) := by
  rcases parts_eq path with hparts | ⟨hparts, habs⟩
  · rw [hparts, List.foldl_append]
    cases isAbsolute path <;> rfl
  · rw [hparts, habs]
    rfl

/-- The parts of a normalized path: of the `..` that find no name, every other one is lost. -/
theorem parts_normalize {path : List Char} {k : Nat} {names : List (List Char)}
    (h : Leaves (inner path) k names) :
    parts (normalize path) =
      lead (isAbsolute path) ++ (List.replicate (k % 2) .up ++ names.map .name) := by
  have hfold := h.normalStep (isAbsolute path) 0
  rw [Nat.zero_add] at hfold
  have htext : normalize path =
      ofParts (lead (isAbsolute path) ++ (List.replicate (k % 2) .up ++ names.map .name)) := by
    unfold normalize
    rw [foldl_parts]
    refine congrArg ofParts ((congrArg List.reverse hfold).trans ?_)
    simp [reverse_lead]
  rw [htext]
  refine parts_ofParts _ fun p hp => ?_
  rcases List.mem_append.1 hp with hp | hp
  · rw [List.eq_of_mem_replicate hp]
    exact isInner_up
  · obtain ⟨cs, hcs, rfl⟩ := List.mem_map.1 hp
    exact isInner_of_mem (h.mem hcs)

theorem target_normalize {path : List Char} {k : Nat} {names : List (List Char)}
    (h : Leaves (inner path) k names) (base : List (List Char)) :
    target base (normalize path) =
      let start := if isAbsolute path then [] else base
      start.take (start.length - k % 2) ++ names := by
  unfold target
  rw [parts_normalize h, List.foldl_append, (leaves_replicate_append _ _).leads]
  cases isAbsolute path <;> rfl

/-- A normalized path leads to the same place just when at most one `..` is left of it. -/
theorem target_normalize_iff {path : List Char} {k : Nat} {names : List (List Char)}
    (h : Leaves (inner path) k names) :
    (∀ base, target base (normalize path) = target base path) ↔ isAbsolute path = true ∨ k ≤ 1 := by
  have hbefore (base : List (List Char)) := target_eq base path
  simp only [h.leads] at hbefore
  constructor
  · intro hsame
    cases habs : isAbsolute path with
    | true => exact .inl rfl
    | false =>
      have hlength := congrArg List.length (hsame (List.replicate k []))
      rw [target_normalize h, hbefore, habs] at hlength
      simp at hlength
      omega
  · rintro (habs | hk) base
    · rw [target_normalize h, hbefore, habs]
      simp
    · rw [target_normalize h, hbefore, Nat.mod_eq_of_lt (Nat.lt_succ_of_le hk)]

/-- **Normalizing is exact as far as at most one `..` is left**: every path leaves something,
normalizing keeps every other `..` of that, and a normalized path leads to the same place just when
it is absolute or no `..` is lost; and the same for a reference, which is told from the place above
a file. -/
theorem relativeTo_exact (path : List Char) (file reference : String) :
    (∀ anyPath, ∃ k names, Leaves (inner anyPath) k names) ∧
    (∀ k names, Leaves (inner path) k names →
      parts (normalize path) =
        lead (isAbsolute path) ++ (List.replicate (k % 2) .up ++ names.map .name) ∧
      (parts (normalize path) =
          lead (isAbsolute path) ++ (List.replicate k .up ++ names.map .name) ↔ k ≤ 1) ∧
      ((∀ base, target base (normalize path) = target base path) ↔
        isAbsolute path = true ∨ k ≤ 1)) ∧
    (∀ k names, Leaves (inner (join (parent file.toList) reference.toList)) k names →
      ((∀ base, target base (relativeTo file reference).toList =
          target (target base (parent file.toList)) reference.toList) ↔
        isAbsolute reference.toList = true ∨ isAbsolute (parent file.toList) = true ∨ k ≤ 1)) ∧
    ∀ name, fileName? file.toList = some name →
      isAbsolute (parent file.toList) = isAbsolute file.toList ∧
      ∀ base, target base file.toList = target base (parent file.toList) ++ [name] := by
  refine ⟨exists_leaves_inner, ?_, ?_, ?_⟩
  · intro k names h
    refine ⟨parts_normalize h, ?_, target_normalize_iff h⟩
    rw [parts_normalize h]
    constructor
    · intro heq
      have hlength := congrArg List.length heq
      simp only [List.length_append, List.length_replicate] at hlength
      omega
    · intro hk
      rw [Nat.mod_eq_of_lt (Nat.lt_succ_of_le hk)]
  · intro k names h
    have hiff := target_normalize_iff h
    rw [isAbsolute_join, Bool.or_eq_true, or_assoc] at hiff
    rw [← hiff, relativeTo, String.toList_ofList]
    exact forall_congr' fun base => by rw [target_join]
  · intro name hname
    exact ⟨(parent_of_fileName? hname).1, target_of_fileName? hname⟩

/-- The place above a file, and what a reference to two directories further up means there. -/
theorem relativeTo_exact_nestedFile :
    fileName? "/app/src/App.vue".toList = some "App.vue".toList ∧
      (∀ base, target base "/app/src/App.vue".toList =
        target base (parent "/app/src/App.vue".toList) ++ ["App.vue".toList]) ∧
      Leaves (inner "../../a.js".toList) 2 ["a.js".toList] ∧
      parts (normalize "../../a.js".toList) = [.name "a.js".toList] ∧
      ∀ base, target base (relativeTo "/app/src/App.vue" "../../a.js").toList =
        target (target base (parent "/app/src/App.vue".toList)) "../../a.js".toList := by
  have hname : fileName? "/app/src/App.vue".toList = some "App.vue".toList := by decide
  have htwice : Leaves (inner "../../a.js".toList) 2 ["a.js".toList] :=
    leaves_replicate_append 2 ["a.js".toList]
  obtain ⟨hleaves, hparts, hreference, hplace⟩ :=
    relativeTo_exact "../../a.js".toList "/app/src/App.vue" "../../a.js"
  obtain ⟨k, names, h⟩ := hleaves (join (parent "/app/src/App.vue".toList) "../../a.js".toList)
  exact ⟨hname, (hplace _ hname).2, htwice, (hparts _ _ htwice).1,
    (hreference k names h).2 (.inr (.inl (by decide)))⟩

/-- From a file without a directory, two directories up are none: the two `..` cancel each other. -/
theorem not_target_relativeTo_twiceUp :
    relativeTo "App.vue" "../../a.js" = "a.js" ∧
      Leaves (inner "../../a.js".toList) 2 ["a.js".toList] ∧
      parts (normalize "../../a.js".toList) = [.name "a.js".toList] ∧
      target ["x".toList, "y".toList] (relativeTo "App.vue" "../../a.js").toList ≠
        target (target ["x".toList, "y".toList] (parent "App.vue".toList)) "../../a.js".toList := by
  refine ⟨by decide, ?_, by decide, by decide⟩
  exact leaves_replicate_append 2 ["a.js".toList]

end SingleFile.Path
