import SingleFile.Proofs.Json.Keys

/-!
# One value laid over another

A list of keys leads to a place in a value (`at?`), and `MergedAt` says by cases what is at a place where
one value is laid over another: what the overlay has there, where this is no object or finds none, and
what the base has, where the overlay does not reach.  A merged object has a merged value under each key
(`lookup_mergeFields`), so that the cases are told one key further on (`MergedAt.cons`) until one of the
two is no object (`mergedAt_of_bare`).  `merge_exact` is the result, with what comes of merging twice.
-/

namespace SingleFile.Json

def IsObject : Json → Prop
  | .object _ => True
  | _ => False

/-- What some keys lead to, each of them in the object that the ones before it lead to. -/
def at? : Json → List String → Option Json
  | v, [] => some v
  | v, key :: path => (v.get? key).bind fun w => w.at? path

/-- What is at a place, told by what a base and an overlay have at it and above. -/
structure MergedAt (base overlay merged : List String → Option Json) (path : List String) : Prop where
  replaced : ∀ v, overlay path = some v → ¬ v.IsObject → merged path = some v
  joined : ∀ old v, base path = some old → overlay path = some v → old.IsObject → v.IsObject →
    merged path = some (merge old v)
  added : ∀ v, overlay path = some v → v.IsObject → (∀ old, base path = some old → ¬ old.IsObject) →
    merged path = some v
  hidden : ∀ above v, above <+: path → above ≠ path → overlay above = some v → ¬ v.IsObject →
    merged path = none
  kept : overlay path = none → (∀ above v, above <+: path → overlay above = some v → v.IsObject) →
    merged path = base path

/-! ### Objects laid over objects -/

theorem merge_object (base overlay : List (String × Json)) :
    merge (.object base) (.object overlay) = .object (mergeFields base overlay) := by
  rw [merge]

theorem merge_of_base {base overlay : Json} (h : ¬ base.IsObject) : merge base overlay = overlay := by
  unfold merge
  split
  · exact absurd trivial h
  · rfl

theorem merge_of_overlay {base overlay : Json} (h : ¬ overlay.IsObject) :
    merge base overlay = overlay := by
  unfold merge
  split
  · exact absurd trivial h
  · rfl

/-- The value of a key when a field is laid over fields. -/
def laid (base : Option Json) (v : Json) : Json := (base.map fun old => merge old v).getD v

theorem mergeFields_cons (base rest : List (String × Json)) (key : String) (v : Json) :
    mergeFields base ((key, v) :: rest) =
      mergeFields (insertField key (laid (lookup key base) v) base) rest := by
  rw [mergeFields]
  cases lookup key base <;> rfl

/-- A merged object has the merged value under each key. -/
theorem lookup_mergeFields (key : String) {base overlay : List (String × Json)}
    (h : (overlay.map (·.1)).Nodup) : lookup key (mergeFields base overlay) =
      ((lookup key overlay).map (laid (lookup key base))).or (lookup key base) := by
  induction overlay generalizing base with
  | nil => rw [mergeFields, lookup, Option.map_none, Option.none_or]
  | cons f rest ih =>
    obtain ⟨k, v⟩ := f
    obtain ⟨hk, hrest⟩ := List.nodup_cons.1 h
    rw [mergeFields_cons, ih hrest, lookup_insertField, lookup]
    by_cases hkey : key = k
    · subst hkey
      rw [if_pos rfl, if_pos rfl, lookup_eq_none hk]
      rfl
    · rw [if_neg hkey, if_neg hkey]

theorem pairwise_mergeFields {base : List (String × Json)} (overlay : List (String × Json))
    (h : (base.map (·.1)).Pairwise (· < ·)) :
    ((mergeFields base overlay).map (·.1)).Pairwise (· < ·) := by
  induction overlay generalizing base with
  | nil =>
    rw [mergeFields]
    exact h
  | cons f rest ih =>
    rw [mergeFields_cons]
    exact ih (pairwise_insertField _ _ h)

mutual

theorem isSorted_merge {base overlay : Json} (hbase : base.IsSorted) (h : overlay.IsSorted) :
    (merge base overlay).IsSorted := by
  by_cases hobject : overlay.IsObject
  · cases overlay with
    | object overlay =>
      cases base with
      | object base =>
        rw [merge_object]
        exact isSorted_mergeFields hbase (keyed_object_iff.1 h).2
      | _ => exact h
    | _ => exact absurd hobject not_false
  · rw [merge_of_overlay hobject]
    exact h

theorem isSorted_mergeFields {base overlay : List (String × Json)}
    (hbase : (Json.object base).IsSorted) (h : ∀ f ∈ overlay, f.2.IsSorted) :
    (Json.object (mergeFields base overlay)).IsSorted := by
  cases overlay with
  | nil =>
    rw [mergeFields]
    exact hbase
  | cons f rest =>
    rw [mergeFields_cons]
    refine isSorted_mergeFields (isSorted_insertField ?_ hbase) (List.forall_mem_cons.1 h).2
    cases hold : lookup f.1 base with
    | none => exact (List.forall_mem_cons.1 h).1
    | some old =>
      exact isSorted_merge (Keyed.lookup (keyed_object_iff.1 hbase).2 hold) (List.forall_mem_cons.1 h).1

end

/-! ### Merging twice -/

theorem merge_self {v : Json} (h : v.IsSorted) : merge v v = v := by
  induction h with
  | @object fields hkeys _ ih =>
    rw [merge_object]
    refine congrArg _ (eq_of_lookup (pairwise_mergeFields fields hkeys) hkeys fun key => ?_)
    rw [lookup_mergeFields key (nodup_of_pairwise hkeys)]
    cases hv : lookup key fields with
    | none => rfl
    | some v => exact congrArg some (ih _ (mem_of_lookup hv))
  | _ => exact merge_of_overlay not_false

/-- **A value that is laid over another one twice is there as after the first time.** -/
theorem merge_merge {base overlay : Json} (hbase : base.IsSorted) (h : overlay.IsSorted) :
    merge (merge base overlay) overlay = merge base overlay := by
  induction h generalizing base with
  | @object overlay hkeys hfields ih =>
    by_cases hobject : base.IsObject
    · cases base with
      | object base =>
        obtain ⟨hbaseKeys, hbase⟩ := keyed_object_iff.1 hbase
        have hmerged := pairwise_mergeFields overlay hbaseKeys
        have hunique := nodup_of_pairwise hkeys
        rw [merge_object, merge_object]
        refine congrArg _ (eq_of_lookup (pairwise_mergeFields overlay hmerged) hmerged fun key => ?_)
        rw [lookup_mergeFields key hunique, lookup_mergeFields key hunique]
        cases hv : lookup key overlay with
        | none => rfl
        | some v =>
          refine congrArg some ?_
          cases hold : lookup key base with
          | none => exact merge_self (Keyed.lookup hfields hv)
          | some old => exact ih _ (mem_of_lookup hv) (Keyed.lookup hbase hold)
      | _ => exact absurd hobject not_false
    · rw [merge_of_base hobject]
      exact merge_self (.object hkeys hfields)
  | _ => rw [merge_of_overlay, merge_of_overlay] <;> exact not_false

/-! ### Places in a merged value -/

theorem at?_append (v : Json) (path rest : List String) :
    v.at? (path ++ rest) = (v.at? path).bind (·.at? rest) := by
  induction path generalizing v with
  | nil => rfl
  | cons key path ih =>
    rw [List.cons_append, at?, at?, Option.bind_assoc]
    exact Option.bind_congr fun w _ => ih w

theorem get?_of_not_isObject {v : Json} (h : ¬ v.IsObject) (key : String) : v.get? key = none := by
  cases v with
  | object fields => exact absurd trivial h
  | _ => rfl

theorem at?_cons_of_not_isObject {v : Json} (h : ¬ v.IsObject) (key : String) (path : List String) :
    v.at? (key :: path) = none := by
  rw [at?, get?_of_not_isObject h, Option.bind_none]

/-- Nothing is below a value that is no object. -/
theorem at?_of_above {v w : Json} {above path : List String} (habove : above <+: path)
    (hne : above ≠ path) (hw : v.at? above = some w) (hobject : ¬ w.IsObject) : v.at? path = none := by
  obtain ⟨rest, rfl⟩ := habove
  obtain ⟨key, rest, rfl⟩ := List.exists_cons_of_ne_nil fun hnil : rest = [] => hne (by simp [hnil])
  rw [at?_append, hw]
  exact at?_cons_of_not_isObject hobject key rest

variable {base overlay merged : List String → Option Json} {path : List String}

/-- Where the base has nothing but a value that is no object, the overlay stands as it is. -/
theorem mergedAt_of_bare (hbase : ∀ path old, base path = some old → path = [] ∧ ¬ old.IsObject)
    (v : Json) (path : List String) : MergedAt base v.at? v.at? path where
  replaced _ hv _ := hv
  joined _ _ hold _ hobject _ := absurd hobject (hbase _ _ hold).2
  added _ hv _ _ := hv
  hidden _ _ habove hne hv hobject := at?_of_above habove hne hv hobject
  kept hnone _ := by
    rw [hnone]
    cases hold : base path with
    | none => rfl
    | some old =>
      rw [(hbase path old hold).1] at hnone
      cases hnone

/-- What the overlay does not reach stays. -/
theorem mergedAt_of_missing (hoverlay : ∀ path, overlay path = none) (path : List String) :
    MergedAt base overlay base path where
  replaced _ hv := nomatch (hoverlay path).symm.trans hv
  joined _ _ _ hv := nomatch (hoverlay path).symm.trans hv
  added _ hv := nomatch (hoverlay path).symm.trans hv
  hidden above _ _ _ hv := nomatch (hoverlay above).symm.trans hv
  kept _ _ := rfl

/-- An overlay that is no object hides all that is below it. -/
theorem mergedAt_of_not_isObject {v : Json} (h : ¬ v.IsObject) (key : String) (path : List String) :
    MergedAt base v.at? v.at? (key :: path) where
  replaced _ hv _ := hv
  joined _ _ _ hw := nomatch (at?_cons_of_not_isObject h key path).symm.trans hw
  added _ hv _ _ := hv
  hidden _ _ _ _ _ _ := at?_cons_of_not_isObject h key path
  kept _ habove := absurd (habove [] v (List.nil_prefix) rfl) h

/-- The cases at a key of an object are those of the value under the key. -/
theorem MergedAt.cons {key : String} (hobject : ∀ v, overlay [] = some v → v.IsObject)
    (h : MergedAt (fun path => base (key :: path)) (fun path => overlay (key :: path))
      (fun path => merged (key :: path)) path) : MergedAt base overlay merged (key :: path) where
  replaced := h.replaced
  joined := h.joined
  added := h.added
  hidden above v habove hne hv hv' := by
    cases above with
    | nil => exact absurd (hobject v hv) hv'
    | cons k above =>
      obtain ⟨rfl, hbelow⟩ := List.cons_prefix_cons.1 habove
      exact h.hidden above v hbelow (fun heq => hne (by rw [heq])) hv hv'
  kept hnone hall := h.kept hnone fun above v habove =>
    hall (key :: above) v (List.cons_prefix_cons.2 ⟨rfl, habove⟩)

/-- The cases at a place, for all values whose keys are unique. -/
theorem mergedAt_merge {base overlay : Json} (h : overlay.UniqueKeys) (path : List String) :
    MergedAt base.at? overlay.at? (merge base overlay).at? path := by
  induction path generalizing base overlay with
  | nil =>
    refine ⟨?_, ?_, ?_, ?_, ?_⟩
    · rintro v ⟨⟩ hobject
      exact congrArg some (merge_of_overlay hobject)
    · rintro old v ⟨⟩ ⟨⟩ - -
      rfl
    · rintro v ⟨⟩ - hbase
      exact congrArg some (merge_of_base (hbase base rfl))
    · intro above v habove hne
      exact absurd (List.prefix_nil.1 habove) hne
    · rintro ⟨⟩
  | cons key path ih =>
    -- two objects have their values under `key` merged, any others leave the overlay alone
    by_cases hoverlay : overlay.IsObject
    · by_cases hbase : base.IsObject
      · cases base with
        | object base =>
          cases overlay with
          | object overlay =>
            obtain ⟨hkeys, hfields⟩ := keyed_object_iff.1 h
            rw [merge_object]
            refine MergedAt.cons (fun v hv => by cases hv; trivial) ?_
            show MergedAt (fun path => (lookup key base).bind (·.at? path))
              (fun path => (lookup key overlay).bind (·.at? path))
              (fun path => (lookup key (mergeFields base overlay)).bind (·.at? path)) path
            rw [lookup_mergeFields key hkeys]
            cases hv : lookup key overlay with
            | none => exact mergedAt_of_missing (fun _ => rfl) path
            | some v =>
              cases lookup key base with
              | none => exact mergedAt_of_bare (fun _ _ hold => by cases hold) v path
              | some old => exact ih (Keyed.lookup hfields hv)
          | _ => exact absurd hoverlay not_false
        | _ => exact absurd hbase not_false
      · rw [merge_of_base hbase]
        refine mergedAt_of_bare (fun path old hold => ?_) overlay (key :: path)
        cases path with
        | nil =>
          cases hold
          exact ⟨rfl, hbase⟩
        | cons k path => exact nomatch (at?_cons_of_not_isObject hbase k path).symm.trans hold
    · rw [merge_of_overlay hoverlay]
      exact mergedAt_of_not_isObject hoverlay key path

/-- **What is at each place, where one value is laid over another, and what comes of doing so twice.** -/
theorem merge_exact (base overlay : Json) :
    (∀ path, MergedAt base.sorted.at? overlay.sorted.at? (merge base.sorted overlay.sorted).at? path) ∧
    merge (merge base.sorted overlay.sorted) overlay.sorted = merge base.sorted overlay.sorted :=
  ⟨mergedAt_merge (isSorted_sorted overlay).uniqueKeys,
    merge_merge (isSorted_sorted base) (isSorted_sorted overlay)⟩

end SingleFile.Json
