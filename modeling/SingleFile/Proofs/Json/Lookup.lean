import SingleFile.Json.Basic

/-!
# Looking up fields

What the fields of an object say of a key after one is put in (`lookup_insertField`), after two lists of
them (`lookup_append`), and after sorting, where the last of a repeated key counts (`get?_sorted`).
-/

namespace SingleFile.Json

variable {α : Type}

theorem lookup_insertField (key k : String) (v : α) (fields : List (String × α)) :
    lookup key (insertField k v fields) = if key = k then some v else lookup key fields := by
  induction fields with
  | nil => rfl
  | cons f rest ih =>
    obtain ⟨k', v'⟩ := f
    by_cases hk : k = k'
    · subst hk
      rw [insertField, if_pos rfl, lookup, lookup]
      split <;> rfl
    · rw [insertField, if_neg hk]
      split
      · rw [lookup]
      · rw [lookup, lookup, ih]
        by_cases hkey : key = k'
        · subst hkey
          rw [if_pos rfl, if_neg (Ne.symm hk), if_pos rfl]
        · rw [if_neg hkey, if_neg hkey]

theorem lookup_append (key : String) (a b : List (String × α)) :
    lookup key (a ++ b) = (lookup key a).or (lookup key b) := by
  induction a with
  | nil => rfl
  | cons f rest ih =>
    rw [List.cons_append, lookup, lookup, ih]
    split <;> rfl

theorem lookup_foldl_insertField (key : String) (fields acc : List (String × α)) :
    lookup key (fields.foldl (fun acc f => insertField f.1 f.2 acc) acc) =
      (lookup key fields.reverse).or (lookup key acc) := by
  induction fields generalizing acc with
  | nil => rfl
  | cons f rest ih =>
    rw [List.foldl_cons, ih, lookup_insertField, List.reverse_cons, lookup_append, Option.or_assoc]
    congr 1
    rw [lookup]
    split <;> rfl

theorem lookup_map (key : String) {β : Type} (f : α → β) (fields : List (String × α)) :
    lookup key (fields.map fun x => (x.1, f x.2)) = (lookup key fields).map f := by
  induction fields with
  | nil => rfl
  | cons x rest ih =>
    rw [List.map_cons, lookup, lookup, ih]
    split <;> rfl

theorem sortedFields_eq (fields : List (String × Json)) :
    sortedFields fields = fields.map fun f => (f.1, f.2.sorted) := by
  induction fields with
  | nil => rfl
  | cons f rest ih => rw [sortedFields, ih, List.map_cons]

/-- Of a repeated key a sorted object has the last value. -/
theorem get?_sorted (key : String) (fields : List (String × Json)) :
    get? (sorted (.object fields)) key = (lookup key fields.reverse).map sorted := by
  rw [sorted, get?, lookup_foldl_insertField, sortedFields_eq, ← List.map_reverse, lookup_map]
  exact Option.or_none

end SingleFile.Json
