import SingleFile.Json.Reader
import SingleFile.Proofs.Number.Rounding

/-!
# The numbers in values are doubles

A value is sound if each number in it that is not whole is stored as doubles are.  All that is read
is sound (`sound_parse`), and it stays so when its fields are sorted (`sound_sorted`).
-/

namespace SingleFile.Json

/-- A number that is not whole is a double. -/
def Number.Sound : Number → Prop
  | .real x => x.IsDouble
  | .natural _ | .negative _ => True

mutual

/-- All numbers that are not whole are doubles. -/
def Sound : Json → Prop
  | .number n => n.Sound
  | .array items => SoundItems items
  | .object fields => SoundFields fields
  | .null | .bool _ | .string _ => True

def SoundItems : List Json → Prop
  | [] => True
  | v :: rest => Sound v ∧ SoundItems rest

def SoundFields : List (String × Json) → Prop
  | [] => True
  | (_, v) :: rest => Sound v ∧ SoundFields rest

end

theorem soundItems_iff {vs : List Json} : SoundItems vs ↔ ∀ v ∈ vs, v.Sound := by
  induction vs with
  | nil => simp [SoundItems]
  | cons v vs ih => simp [SoundItems, ih]

theorem soundFields_iff {fs : List (String × Json)} : SoundFields fs ↔ ∀ f ∈ fs, f.2.Sound := by
  induction fs with
  | nil => simp [SoundFields]
  | cons f fs ih => simp [SoundFields, ih]

/-! ### What is read -/

theorem Number.sound_real {x : Option Binary64} {n : Number} (hx : ∀ y ∈ x, y.IsDouble)
    (h : x.map .real = some n) : n.Sound := by
  obtain ⟨y, hy, rfl⟩ := Option.map_eq_some_iff.1 h
  exact hx y hy

theorem sound_numberOf {negative : Bool} {whole : List Char} {fraction : Option (List Char)}
    {exponent : Option Int} {n : Number} (h : numberOf negative whole fraction exponent = some n) :
    n.Sound := by
  have hread {negative : Bool} {s : Nat} {e : Int} :
      ∀ y ∈ Binary64.ofDecimal negative s e, y.IsDouble := fun y hy =>
    Binary64.isDouble_ofDecimal hy
  unfold numberOf at h
  dsimp only at h
  split at h
  · split at h
    · split at h
      · cases h
        trivial
      split at h
      · cases h
        trivial
      · exact Number.sound_real hread h
    · exact Number.sound_real hread h
  · exact Number.sound_real hread h

/-- The last step of reading a number, when its exponent has been read. -/
theorem sound_of_exponent {x : Option (Option Int × List Char)} {negative : Bool}
    {whole rest : List Char} {fraction : Option (List Char)} {n : Number}
    (h : (x.bind fun er => (numberOf negative whole fraction er.1).bind fun m => some (m, er.2)) =
      some (n, rest)) : n.Sound := by
  obtain ⟨er, _, h⟩ := Option.bind_eq_some_iff.1 h
  obtain ⟨m, hm, h⟩ := Option.bind_eq_some_iff.1 h
  cases h
  exact sound_numberOf hm

theorem sound_readNumber {cs rest : List Char} {n : Number} (h : readNumber cs = some (n, rest)) :
    n.Sound := by
  unfold readNumber at h
  dsimp only at h
  obtain ⟨_, _, h⟩ := Option.bind_eq_some_iff.1 h
  split at h
  · split at h
    · exact nomatch h
    · obtain ⟨fr, _, h⟩ := Option.bind_eq_some_iff.1 h
      split at h <;> exact sound_of_exponent h
  · obtain ⟨fr, _, h⟩ := Option.bind_eq_some_iff.1 h
    split at h <;> exact sound_of_exponent h

section Step

variable {depth fuel : Nat} {cs r : List Char}

theorem sound_readValue_succ {v : Json}
    (hitems : ∀ depth cs vs r, readItems depth fuel cs = some (vs, r) → SoundItems vs)
    (hfields : ∀ depth cs fs r, readFields depth fuel cs = some (fs, r) → SoundFields fs)
    (h : readValue depth (fuel + 1) cs = some (v, r)) : Sound v := by
  rw [readValue] at h
  split at h
  · cases h; trivial
  · cases h; trivial
  · cases h; trivial
  · obtain ⟨_, _, h⟩ := Option.map_eq_some_iff.1 h
    cases h; trivial
  · split at h
    · exact nomatch h
    split at h
    · cases h; trivial
    · obtain ⟨⟨vs, r⟩, hread, h⟩ := Option.map_eq_some_iff.1 h
      cases h
      exact hitems _ _ _ _ hread
  · split at h
    · exact nomatch h
    split at h
    · cases h; trivial
    · obtain ⟨⟨fs, r⟩, hread, h⟩ := Option.map_eq_some_iff.1 h
      cases h
      exact hfields _ _ _ _ hread
  · obtain ⟨⟨n, r⟩, hread, h⟩ := Option.map_eq_some_iff.1 h
    cases h
    exact sound_readNumber hread

theorem sound_readItems_succ {vs : List Json}
    (hvalue : ∀ depth cs v r, readValue depth fuel cs = some (v, r) → Sound v)
    (hitems : ∀ depth cs vs r, readItems depth fuel cs = some (vs, r) → SoundItems vs)
    (h : readItems depth (fuel + 1) cs = some (vs, r)) : SoundItems vs := by
  rw [readItems] at h
  split at h
  · exact nomatch h
  next v t hv =>
  have hsound := hvalue _ _ _ _ hv
  split at h
  · obtain ⟨⟨ws, r⟩, hread, h⟩ := Option.map_eq_some_iff.1 h
    cases h
    exact ⟨hsound, hitems _ _ _ _ hread⟩
  · cases h
    exact ⟨hsound, trivial⟩
  · exact nomatch h

theorem sound_readFields_succ {fs : List (String × Json)}
    (hvalue : ∀ depth cs v r, readValue depth fuel cs = some (v, r) → Sound v)
    (hfields : ∀ depth cs fs r, readFields depth fuel cs = some (fs, r) → SoundFields fs)
    (h : readFields depth (fuel + 1) cs = some (fs, r)) : SoundFields fs := by
  rw [readFields] at h
  split at h
  · split at h
    · exact nomatch h
    split at h
    · split at h
      · exact nomatch h
      next v t hv =>
      have hsound := hvalue _ _ _ _ hv
      dsimp only at h
      split at h
      · obtain ⟨⟨gs, r⟩, hread, h⟩ := Option.map_eq_some_iff.1 h
        cases h
        exact ⟨hsound, hfields _ _ _ _ hread⟩
      · cases h
        exact ⟨hsound, trivial⟩
      · exact nomatch h
    · exact nomatch h
  · exact nomatch h

end Step

/-- What the three readers of values give.  Each calls the others with less fuel. -/
theorem sound_read (fuel : Nat) :
    (∀ depth cs v r, readValue depth fuel cs = some (v, r) → Sound v) ∧
      (∀ depth cs vs r, readItems depth fuel cs = some (vs, r) → SoundItems vs) ∧
      ∀ depth cs fs r, readFields depth fuel cs = some (fs, r) → SoundFields fs := by
  induction fuel with
  | zero =>
    refine ⟨fun _ _ _ _ h => ?_, fun _ _ _ _ h => ?_, fun _ _ _ _ h => ?_⟩
    · rw [readValue] at h
      exact nomatch h
    · rw [readItems] at h
      exact nomatch h
    · rw [readFields] at h
      exact nomatch h
  | succ fuel ih =>
    obtain ⟨ihValue, ihItems, ihFields⟩ := ih
    exact ⟨fun _ _ _ _ h => sound_readValue_succ ihItems ihFields h,
      fun _ _ _ _ h => sound_readItems_succ ihValue ihItems h,
      fun _ _ _ _ h => sound_readFields_succ ihValue ihFields h⟩

/-- **All numbers that are read are doubles, or whole.** -/
theorem sound_parse {text : String} {v : Json} (h : parse text = some v) : v.Sound := by
  unfold parse parseChars at h
  split at h
  · next hread =>
    split at h
    · cases h
      exact (sound_read _).1 _ _ _ _ hread
    · exact nomatch h
  · exact nomatch h

/-! ### Sorted values -/

theorem forall_insertField {α : Type} {P : α → Prop} {key : String} {value : α}
    {fields : List (String × α)} (hvalue : P value) (h : ∀ f ∈ fields, P f.2) :
    ∀ f ∈ insertField key value fields, P f.2 := by
  induction fields with
  | nil =>
    intro f hf
    rw [List.mem_singleton.1 hf]
    exact hvalue
  | cons g fields ih =>
    obtain ⟨k, v⟩ := g
    have hrest : ∀ f ∈ fields, P f.2 := fun f hf => h f (List.mem_cons_of_mem _ hf)
    intro f hf
    rw [insertField] at hf
    split at hf
    · rcases List.mem_cons.1 hf with rfl | hf
      · exact hvalue
      · exact hrest f hf
    split at hf
    · rcases List.mem_cons.1 hf with rfl | hf
      · exact hvalue
      · exact h f hf
    · rcases List.mem_cons.1 hf with rfl | hf
      · exact h _ List.mem_cons_self
      · exact ih hrest f hf

theorem forall_foldl_insertField {α : Type} {P : α → Prop} {fields acc : List (String × α)}
    (h : ∀ f ∈ fields, P f.2) (hacc : ∀ f ∈ acc, P f.2) :
    ∀ f ∈ fields.foldl (fun acc f => insertField f.1 f.2 acc) acc, P f.2 := by
  induction fields generalizing acc with
  | nil => exact hacc
  | cons g fields ih =>
    exact ih (fun f hf => h f (List.mem_cons_of_mem g hf))
      (forall_insertField (h g List.mem_cons_self) hacc)

mutual

theorem sound_sorted {v : Json} (h : v.Sound) : v.sorted.Sound := by
  cases v with
  | null => trivial
  | bool b => trivial
  | number n => exact h
  | string s => trivial
  | array items => exact sound_sortedItems h
  | object fields =>
    exact soundFields_iff.2 (forall_foldl_insertField (soundFields_iff.1 (sound_sortedFields h))
      (fun _ hf => absurd hf List.not_mem_nil))

theorem sound_sortedItems {vs : List Json} (h : SoundItems vs) : SoundItems (sortedItems vs) := by
  cases vs with
  | nil => trivial
  | cons v vs => exact ⟨sound_sorted h.1, sound_sortedItems h.2⟩

theorem sound_sortedFields {fs : List (String × Json)} (h : SoundFields fs) :
    SoundFields (sortedFields fs) := by
  cases fs with
  | nil => trivial
  | cons f fs => exact ⟨sound_sorted h.1, sound_sortedFields h.2⟩

end

end SingleFile.Json
