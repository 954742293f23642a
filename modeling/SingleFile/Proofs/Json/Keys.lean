import Mathlib.Data.String.Basic
import SingleFile.Json.Record
import SingleFile.Proofs.Json.Lookup
import SingleFile.Proofs.Json.Sound

/-!
# Keys of objects

`Keyed` says something of the keys of every object in a value.  That no key occurs twice is
`UniqueKeys`, and that the keys go up is `IsSorted`, which is more (`IsSorted.uniqueKeys`).  What is
sorted is so (`isSorted_sorted`), and a sorted object stays so when a field is put in.  There it is
enough to look at the value of each key: sorted fields that agree about them are the same
(`eq_of_lookup`).
-/

namespace SingleFile.Json

/-- The keys of every object in a value, in the order written, are such. -/
inductive Keyed (P : List String → Prop) : Json → Prop where
  | null : Keyed P .null
  | bool (b : Bool) : Keyed P (.bool b)
  | number (n : Number) : Keyed P (.number n)
  | string (s : String) : Keyed P (.string s)
  | array {items : List Json} (h : ∀ v ∈ items, Keyed P v) : Keyed P (.array items)
  | object {fields : List (String × Json)} (hkeys : P (fields.map (·.1)))
      (h : ∀ f ∈ fields, Keyed P f.2) : Keyed P (.object fields)

/-- No object in a value has a key twice. -/
abbrev UniqueKeys : Json → Prop := Keyed List.Nodup

/-- The keys of every object in a value go up. -/
abbrev IsSorted : Json → Prop := Keyed (List.Pairwise (· < ·))

variable {P Q : List String → Prop} {fields : List (String × Json)}

theorem keyed_array_iff {items : List Json} : Keyed P (.array items) ↔ ∀ v ∈ items, Keyed P v :=
  ⟨fun | .array h => h, .array⟩

theorem keyed_object_iff : Keyed P (.object fields) ↔
    P (fields.map (·.1)) ∧ ∀ f ∈ fields, Keyed P f.2 :=
  ⟨fun | .object hkeys h => ⟨hkeys, h⟩, fun h => .object h.1 h.2⟩

theorem uniqueKeys_object_iff : (Json.object fields).UniqueKeys ↔
    (fields.map (·.1)).Nodup ∧ ∀ f ∈ fields, f.2.UniqueKeys := keyed_object_iff

/-- An object whose keys are known to differ. -/
theorem uniqueKeys_of_names (names : List String) (hkeys : fields.map (·.1) = names)
    (hnames : names.Nodup) : (Json.object fields).UniqueKeys ↔ ∀ f ∈ fields, f.2.UniqueKeys := by
  rw [uniqueKeys_object_iff, hkeys, and_iff_right hnames]

theorem keyed_ofOption (v : Option String) : Keyed P (ofOption v) := by
  cases v with
  | none => exact .null
  | some s => exact .string s

theorem Keyed.mono {v : Json} (h : Keyed P v) (hPQ : ∀ keys, P keys → Q keys) : Keyed Q v := by
  induction h with
  | null => exact .null
  | bool b => exact .bool b
  | number n => exact .number n
  | string s => exact .string s
  | array _ ih => exact .array ih
  | object hkeys _ ih => exact .object (hPQ _ hkeys) ih

/-- Keys that go up are unique. -/
theorem nodup_of_pairwise {keys : List String} (h : keys.Pairwise (· < ·)) : keys.Nodup :=
  h.imp fun hlt => ne_of_lt hlt

theorem IsSorted.uniqueKeys {v : Json} (h : v.IsSorted) : v.UniqueKeys :=
  h.mono fun _ => nodup_of_pairwise

theorem mem_of_lookup {α : Type} {key : String} {v : α} {fields : List (String × α)}
    (h : lookup key fields = some v) : (key, v) ∈ fields := by
  induction fields with
  | nil => cases h
  | cons f fields ih =>
    rw [lookup] at h
    split at h
    · next hkey =>
      cases h
      rw [hkey]
      exact List.mem_cons_self
    · exact List.mem_cons_of_mem _ (ih h)

theorem lookup_eq_none {α : Type} {key : String} {fields : List (String × α)}
    (h : key ∉ fields.map (·.1)) : lookup key fields = none := by
  induction fields with
  | nil => rfl
  | cons f fields ih =>
    rw [List.map_cons, List.mem_cons, not_or] at h
    rw [lookup, if_neg h.1, ih h.2]

/-- A field that may be missing holds its default, or what is read of it. -/
theorem fieldOr_cases {α : Type} {fields : List (String × Json)} {name : String} {default x : α}
    {read : Json → Option α} (h : fieldOr fields name default read = some x) :
    x = default ∨ ∃ v, lookup name fields = some v ∧ read v = some x := by
  unfold fieldOr at h
  split at h
  · next v hv => exact .inr ⟨v, hv, h⟩
  · exact .inl (Option.some.inj h).symm

theorem Keyed.lookup (h : ∀ f ∈ fields, Keyed P f.2) {key : String} {v : Json}
    (hv : Json.lookup key fields = some v) : Keyed P v := h _ (mem_of_lookup hv)

/-! ### Sorted fields -/

section Fields

variable {α : Type} {fields other : List (String × α)}

theorem mem_keys_insertField {key k : String} {value : α}
    (h : k ∈ (insertField key value fields).map (·.1)) : k = key ∨ k ∈ fields.map (·.1) := by
  induction fields with
  | nil => exact .inl (List.mem_singleton.1 h)
  | cons f fields ih =>
    rw [insertField] at h
    split at h
    · exact (List.mem_cons.1 h).imp_right (List.mem_cons_of_mem _)
    split at h
    · exact List.mem_cons.1 h
    · rcases List.mem_cons.1 h with rfl | h
      · exact .inr List.mem_cons_self
      · exact (ih h).imp_right (List.mem_cons_of_mem _)

theorem pairwise_insertField (key : String) (value : α)
    (h : (fields.map (·.1)).Pairwise (· < ·)) :
    ((insertField key value fields).map (·.1)).Pairwise (· < ·) := by
  induction fields with
  | nil => exact List.pairwise_singleton _ _
  | cons f fields ih =>
    obtain ⟨k, v⟩ := f
    obtain ⟨hbelow, hrest⟩ := List.pairwise_cons.1 h
    rw [insertField]
    split
    · next hkey =>
      rw [hkey]
      exact h
    split
    · next hlt =>
      refine List.pairwise_cons.2 ⟨fun k' hk' => ?_, h⟩
      rcases List.mem_cons.1 hk' with rfl | hk'
      · exact hlt
      · exact lt_trans hlt (hbelow k' hk')
    · next hne hlt =>
      refine List.pairwise_cons.2 ⟨fun k' hk' => ?_, ih hrest⟩
      rcases mem_keys_insertField hk' with rfl | hk'
      · exact lt_of_le_of_ne (not_lt.1 hlt) (Ne.symm hne)
      · exact hbelow k' hk'

/-- Sorted fields are known by the value of each key. -/
theorem eq_of_lookup (h : (fields.map (·.1)).Pairwise (· < ·))
    (hother : (other.map (·.1)).Pairwise (· < ·))
    (hlookup : ∀ key, lookup key fields = lookup key other) : fields = other := by
  -- the first key of the one is among those of the other, so neither is below the other
  have hle {k k' : String} {v v' : α} {xs ys : List (String × α)}
      (hys : (((k', v') :: ys).map (·.1)).Pairwise (· < ·))
      (heq : lookup k ((k, v) :: xs) = lookup k ((k', v') :: ys)) : k' ≤ k := by
    rw [lookup, if_pos rfl] at heq
    rcases List.mem_cons.1 (mem_of_lookup heq.symm) with hmem | hmem
    · exact le_of_eq (Prod.mk.inj hmem).1.symm
    · exact le_of_lt ((List.pairwise_cons.1 hys).1 k (List.mem_map_of_mem hmem))
  induction fields generalizing other with
  | nil =>
    cases other with
    | nil => rfl
    | cons g other =>
      have hg := hlookup g.1
      rw [lookup, lookup, if_pos rfl] at hg
      cases hg
  | cons f fields ih =>
    obtain ⟨k, v⟩ := f
    cases other with
    | nil =>
      have hk := hlookup k
      rw [lookup, lookup, if_pos rfl] at hk
      cases hk
    | cons g other =>
      obtain ⟨k', v'⟩ := g
      obtain rfl : k = k' := le_antisymm (hle h (hlookup k').symm) (hle hother (hlookup k))
      have hv := hlookup k
      rw [lookup, lookup, if_pos rfl, if_pos rfl, Option.some.injEq] at hv
      rw [hv]
      refine congrArg _ (ih (List.pairwise_cons.1 h).2 (List.pairwise_cons.1 hother).2 fun key => ?_)
      by_cases hkey : key = k
      · have hbehind {xs : List (String × α)} {x : α}
            (hxs : (((k, x) :: xs).map (·.1)).Pairwise (· < ·)) : lookup key xs = none := by
          refine lookup_eq_none fun hmem => ?_
          exact absurd hkey (ne_of_gt ((List.pairwise_cons.1 hxs).1 key hmem))
        rw [hbehind h, hbehind hother]
      · have hrest := hlookup key
        rwa [lookup, lookup, if_neg hkey, if_neg hkey] at hrest

end Fields

/-! ### Sorted values -/

theorem isSorted_insertField {key : String} {value : Json} (hvalue : value.IsSorted)
    (h : (Json.object fields).IsSorted) : (Json.object (insertField key value fields)).IsSorted := by
  obtain ⟨hkeys, h⟩ := keyed_object_iff.1 h
  exact .object (pairwise_insertField key value hkeys) (forall_insertField hvalue h)

theorem isSorted_foldl_insertField {acc : List (String × Json)} (h : ∀ f ∈ fields, f.2.IsSorted)
    (hacc : (Json.object acc).IsSorted) :
    (Json.object (fields.foldl (fun acc f => insertField f.1 f.2 acc) acc)).IsSorted := by
  induction fields generalizing acc with
  | nil => exact hacc
  | cons f fields ih =>
    exact ih (fun g hg => h g (List.mem_cons_of_mem f hg))
      (isSorted_insertField (h f List.mem_cons_self) hacc)

theorem isSorted_nil : (Json.object []).IsSorted := .object .nil fun _ hf => nomatch hf

theorem isSorted_singleton (key : String) {v : Json} (h : v.IsSorted) :
    (Json.object [(key, v)]).IsSorted :=
  .object (List.pairwise_singleton _ _) (List.forall_mem_singleton.2 h)

mutual

theorem isSorted_sorted (v : Json) : v.sorted.IsSorted := by
  cases v with
  | null => exact .null
  | bool b => exact .bool b
  | number n => exact .number n
  | string s => exact .string s
  | array items => exact .array (isSorted_sortedItems items)
  | object fields => exact isSorted_foldl_insertField (isSorted_sortedFields fields) isSorted_nil

theorem isSorted_sortedItems (vs : List Json) : ∀ v ∈ sortedItems vs, v.IsSorted := by
  cases vs with
  | nil => exact fun _ hv => nomatch hv
  | cons v vs => exact List.forall_mem_cons.2 ⟨isSorted_sorted v, isSorted_sortedItems vs⟩

theorem isSorted_sortedFields (fs : List (String × Json)) : ∀ f ∈ sortedFields fs, f.2.IsSorted := by
  cases fs with
  | nil => exact fun _ hf => nomatch hf
  | cons f fs => exact List.forall_mem_cons.2 ⟨isSorted_sorted f.2, isSorted_sortedFields fs⟩

end

end SingleFile.Json
