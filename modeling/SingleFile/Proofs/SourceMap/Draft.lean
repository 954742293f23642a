import SingleFile.Proofs.SourceMap.Lookup

/-!
# What a draft holds

`Draft.Holds` says which fragments a draft is made of and that its mappings are theirs, each moved
to where its fragment starts.  Appending keeps it (`holds_push`, `holds_pushFragment`).  Where no
line holds characters of two fragments, each fragment answers for itself in the finished map
(`resolve_entries`), and other lines do not answer (`resolve_entries_eq_none`).

The last section is about inserting: a position moves as the text behind it does
(`shift_after_append`).
-/

namespace SingleFile

/-- The characters of a text have positions of their own, counted from where the text starts. -/
def OnCharacter (cs : List Char) (p : Position) : Prop :=
  ∃ a c b, cs = a ++ c :: b ∧ p = Position.origin.after a

/-- The characters of a text, counted. -/
theorem exists_split_iff {cs : List Char} {P : List Char → Prop} :
    (∃ a c b, cs = a ++ c :: b ∧ P a) ↔ ∃ n ∈ List.range cs.length, P (cs.take n) := by
  constructor
  · rintro ⟨a, c, b, rfl, h⟩
    exact ⟨a.length, by simp, by simpa using h⟩
  · rintro ⟨n, hn, h⟩
    have hlt := List.mem_range.1 hn
    refine ⟨cs.take n, cs[n], cs.drop (n + 1), ?_, h⟩
    rw [← List.drop_eq_getElem_cons hlt, List.take_append_drop]

instance (cs : List Char) (p : Position) : Decidable (OnCharacter cs p) :=
  decidable_of_iff _ exists_split_iff.symm

/-- Nothing stands on the line on which a text ends. -/
def StartsLine (cs : List Char) : Prop := cs = [] ∨ ∃ a, cs = a ++ ['\n']

/-- Each mapping of a map stands on a character of some code. -/
def SourceMap.SitsOn (map : SourceMap) (cs : List Char) : Prop :=
  ∀ e ∈ map.entries, OnCharacter cs e.generated

instance (map : SourceMap) (cs : List Char) : Decidable (map.SitsOn cs) :=
  inferInstanceAs (Decidable (∀ e ∈ map.entries, OnCharacter cs e.generated))

namespace Fragment

/-- A map that can be moved with its code: it is in order, has no ranges, and each mapping has a
source and sits on a character of the code. -/
structure Traceable (f : Fragment) : Prop where
  ordered : ∀ map ∈ f.map, Ordered map.entries
  range : ∀ map ∈ f.map, ∀ m ∈ map.mappings, m.range = false
  source : ∀ map ∈ f.map, ∀ e ∈ map.entries, e.source.isSome = true
  character : ∀ map ∈ f.map, ∀ e ∈ map.entries, OnCharacter f.code.toList e.generated

instance (f : Fragment) : Decidable f.Traceable :=
  decidable_of_iff ((∀ map ∈ f.map, Ordered map.entries) ∧
      (∀ map ∈ f.map, ∀ m ∈ map.mappings, m.range = false) ∧
      (∀ map ∈ f.map, ∀ e ∈ map.entries, e.source.isSome = true) ∧
      (∀ map ∈ f.map, ∀ e ∈ map.entries, OnCharacter f.code.toList e.generated))
    ⟨fun ⟨h₁, h₂, h₃, h₄⟩ => ⟨h₁, h₂, h₃, h₄⟩, fun h => ⟨h.ordered, h.range, h.source, h.character⟩⟩

/-- What a fragment says about a position of its code. -/
def original? (f : Fragment) (p : Position) : Option Origin := f.map.bind (·.original? p)

/-- The mappings of a fragment that starts where a text ends. -/
def entriesAfter (f : Fragment) (front : List Char) : List MapEntry :=
  match f.map with
  | none => []
  | some map => Draft.movedEntries (Position.origin.after front) map

variable {f : Fragment} {front : List Char}

theorem entriesAfter_of_none (h : f.map = none) : f.entriesAfter front = [] := by
  rw [entriesAfter, h]

theorem entriesAfter_of_some {map : SourceMap} (h : f.map = some map) :
    f.entriesAfter front = Draft.movedEntries (Position.origin.after front) map := by
  rw [entriesAfter, h]

theorem Traceable.entriesAfter_eq (hf : f.Traceable) {map : SourceMap} (h : f.map = some map) :
    f.entriesAfter front =
      map.entries.map (MapEntry.moveTo (Position.origin.after front)) := by
  rw [entriesAfter_of_some h, movedEntries_eq (hf.source map h)]

/-- A fragment whose map, if it has one, sits on its code. -/
def Placed (f : Fragment) : Prop := ∀ map ∈ f.map, map.SitsOn f.code.toList

instance (f : Fragment) : Decidable f.Placed :=
  inferInstanceAs (Decidable (∀ map ∈ f.map, map.SitsOn f.code.toList))

/-- Each mapping of a fragment sits on one of its characters, wherever it starts. -/
theorem Placed.exists_of_mem (hf : f.Placed) {e : MapEntry} (he : e ∈ f.entriesAfter front) :
    ∃ a c b, f.code.toList = a ++ c :: b ∧ e.generated = Position.origin.after (front ++ a) := by
  cases hmap : f.map with
  | none =>
    rw [entriesAfter_of_none hmap] at he
    exact absurd he List.not_mem_nil
  | some map =>
    rw [entriesAfter_of_some hmap] at he
    obtain ⟨x, hx, rfl⟩ := List.mem_map.1 he
    obtain ⟨a, c, b, hcode, hp⟩ := hf map hmap x (List.mem_filter.1 hx).1
    refine ⟨a, c, b, hcode, ?_⟩
    rw [Position.after_append, Position.after_eq_offsetBy _ a, ← hp]

theorem Traceable.placed (hf : f.Traceable) : f.Placed := hf.character

theorem Traceable.ordered_entriesAfter (hf : f.Traceable) : Ordered (f.entriesAfter front) := by
  cases hmap : f.map with
  | none =>
    rw [entriesAfter_of_none hmap]
    exact .nil
  | some map =>
    rw [hf.entriesAfter_eq hmap]
    exact ordered_map_moveTo (hf.ordered map hmap) _

/-- Moving a fragment moves its answers. -/
theorem Traceable.resolve_entriesAfter (hf : f.Traceable) (a : List Char) :
    resolve (f.entriesAfter front) (Position.origin.after (front ++ a)) =
      f.original? (Position.origin.after a) := by
  cases hmap : f.map with
  | none =>
    rw [entriesAfter_of_none hmap, original?, hmap]
    rfl
  | some map =>
    rw [hf.entriesAfter_eq hmap, Position.after_append, Position.after_eq_offsetBy _ a,
      resolve_map_moveTo, original?, hmap, Option.bind_some, original?_eq_resolve (hf.range map hmap)]

end Fragment

structure Laid where
  front : List Char
  fragment : Fragment

namespace Laid

/-- The text up to the end of the fragment. -/
def code (x : Laid) : List Char := x.front ++ x.fragment.code.toList

def entries (x : Laid) : List MapEntry := x.fragment.entriesAfter x.front

/-- A line that holds a character of the fragment. -/
def OnLine (x : Laid) (line : Nat) : Prop :=
  ∃ a c b, x.fragment.code.toList = a ++ c :: b ∧
    line = (Position.origin.after (x.front ++ a)).line

instance (x : Laid) (line : Nat) : Decidable (x.OnLine line) :=
  decidable_of_iff _ exists_split_iff.symm

end Laid

namespace Draft

/-- A draft holds fragments, one below the other. -/
structure Holds (d : Draft) (xs : List Laid) : Prop where
  tip : d.tip = Position.origin.after d.code
  entries : d.entries = xs.flatMap (·.entries)
  code : ∀ x ∈ xs, x.code <+: d.code
  startsLine : ∀ x ∈ xs, StartsLine x.front
  below : xs.Pairwise fun x y => x.code <+: y.front

variable {d : Draft} {xs : List Laid}

theorem holds_empty : Holds {} [] :=
  ⟨rfl, rfl, by simp, by simp, .nil⟩

theorem holds_push (h : d.Holds xs) (text : List Char) : (d.push text).Holds xs where
  tip := by
    rw [push, Position.after_append, ← h.tip]
  entries := h.entries
  code x hx := (h.code x hx).trans (List.prefix_append _ _)
  startsLine := h.startsLine
  below := h.below

@[simp] theorem code_push (d : Draft) (text : List Char) : (d.push text).code = d.code ++ text := rfl

@[simp] theorem code_pushFragment (d : Draft) (code : List Char) (map : Option SourceMap) :
    (d.pushFragment code map).code = d.code ++ code := by
  unfold pushFragment
  cases map <;> rfl

/-- Text is inserted in front of the last place where the pattern stands, and the mappings move along. -/
theorem insertBeforeLast?_eq_some {d' : Draft} {pattern text : List Char}
    (h : d.insertBeforeLast? pattern text = some d') :
    ∃ front back, splitLast? pattern d.code = some (front, back) ∧
      d.code = front ++ (pattern ++ back) ∧ d' = { d with
        code := front ++ text ++ (pattern ++ back)
        tip := d.tip.shift (.after .origin front) (.after .origin text)
        entries := d.entries.map fun e =>
          { e with generated := e.generated.shift (.after .origin front) (.after .origin text) } } := by
  unfold insertBeforeLast? at h
  split at h
  · cases h
  · next front back hsplit =>
    have hcode := splitLast_eq hsplit
    rw [List.append_assoc] at hcode
    have hdrop : d.code.drop front.length = pattern ++ back := by
      rw [hcode, List.drop_left]
    rw [hdrop] at h
    exact ⟨front, back, hsplit, hcode, (Option.some.inj h).symm⟩

/-- A fragment that starts a line is laid below all others. -/
theorem holds_pushFragment (h : d.Holds xs) (hline : StartsLine d.code) (f : Fragment) :
    (d.pushFragment f.code.toList f.map).Holds (xs ++ [⟨d.code, f⟩]) := by
  have hcode := code_pushFragment d f.code.toList f.map
  refine ⟨?_, ?_, ?_, ?_, ?_⟩
  · rw [hcode, Position.after_append, ← h.tip]
    unfold pushFragment
    cases f.map <;> rfl
  · rw [List.flatMap_append, ← h.entries]
    show _ = d.entries ++ (f.entriesAfter d.code ++ [])
    rw [List.append_nil]
    unfold pushFragment Fragment.entriesAfter
    cases f.map with
    | none => exact (List.append_nil _).symm
    | some map => rw [← h.tip]; rfl
  · intro x hx
    rw [hcode]
    rcases List.mem_append.1 hx with hx | hx
    · exact (h.code x hx).trans (List.prefix_append _ _)
    · rw [List.mem_singleton.1 hx]
      exact List.prefix_rfl
  · intro x hx
    rcases List.mem_append.1 hx with hx | hx
    · exact h.startsLine x hx
    · rw [List.mem_singleton.1 hx]
      exact hline
  · refine List.pairwise_append.2 ⟨h.below, List.pairwise_singleton _ _, fun x hx y hy => ?_⟩
    rw [List.mem_singleton.1 hy]
    exact h.code x hx

/-! ### Lines of fragments -/

/-- A fragment ends before the line on which the next one starts. -/
theorem line_lt_of_below {x y : Laid} (h : x.code <+: y.front) (hy : StartsLine y.front) {line : Nat}
    (hline : x.OnLine line) : line < (Position.origin.after y.front).line := by
  obtain ⟨a, c, b, hcode, rfl⟩ := hline
  obtain ⟨t, ht⟩ := h
  rw [Laid.code, hcode] at ht
  rcases hy with hnil | ⟨s, hs⟩
  · rw [hnil] at ht
    simp at ht
  · have hlast : '\n' ∈ c :: (b ++ t) := by
      have hcut : (x.front ++ a) ++ c :: (b ++ t) = s ++ ['\n'] := by
        rw [← hs, ← ht]
        simp
      have hgl := congrArg List.getLast? hcut
      rw [List.getLast?_concat, List.getLast?_append_of_ne_nil _ (by simp)] at hgl
      exact List.mem_of_getLast? hgl
    have hpos : 0 < breaks (c :: (b ++ t)) :=
      Nat.pos_of_ne_zero fun h0 => breaks_eq_zero_iff.1 h0 hlast
    have hfront : y.front = (x.front ++ a) ++ c :: (b ++ t) := by
      rw [← ht]
      simp
    rw [hfront, Position.line_after, Position.line_after, breaks_append (x.front ++ a)]
    omega

theorem le_line_of_onLine {x : Laid} {line : Nat} (h : x.OnLine line) :
    (Position.origin.after x.front).line ≤ line := by
  obtain ⟨a, c, b, -, rfl⟩ := h
  rw [Position.line_after, Position.line_after, breaks_append]
  omega

/-- No line holds characters of two fragments. -/
theorem not_onLine_of_below {x y : Laid} (h : x.code <+: y.front) (hy : StartsLine y.front)
    {line : Nat} (hline : x.OnLine line) : ¬ y.OnLine line := fun hyline => by
  have hlt := line_lt_of_below h hy hline
  have hle := le_line_of_onLine hyline
  omega

/-! ### The finished map -/

section Finish

variable (h : d.Holds xs) (hxs : ∀ x ∈ xs, x.fragment.Traceable)

include h hxs

/-- Every mapping stands on a line of the fragment that it comes from. -/
theorem onLine_of_mem {e : MapEntry} (he : e ∈ d.entries) :
    ∃ x ∈ xs, e ∈ x.entries ∧ x.OnLine e.generated.line := by
  rw [h.entries] at he
  obtain ⟨x, hx, hex⟩ := List.mem_flatMap.1 he
  obtain ⟨a, c, b, hcode, hp⟩ := (hxs x hx).placed.exists_of_mem hex
  exact ⟨x, hx, hex, a, c, b, hcode, by rw [hp]⟩

/-- The mappings on a line of a fragment are those of the fragment. -/
theorem filter_line_entries {x : Laid} (hx : x ∈ xs) {line : Nat} (hline : x.OnLine line) :
    d.entries.filter (fun e => e.generated.line = line) =
      x.entries.filter (fun e => e.generated.line = line) := by
  have hother : ∀ ys : List Laid, (∀ y ∈ ys, y ∈ xs ∧ ¬ y.OnLine line) →
      (ys.flatMap (·.entries)).filter (fun e => e.generated.line = line) = [] := by
    intro ys hys
    refine List.filter_eq_nil_iff.2 fun e he => ?_
    obtain ⟨y, hy, hey⟩ := List.mem_flatMap.1 he
    obtain ⟨a, c, b, hcode, hp⟩ := (hxs y (hys y hy).1).placed.exists_of_mem hey
    simp only [decide_eq_true_eq]
    exact fun heq => (hys y hy).2 ⟨a, c, b, hcode, by rw [← heq, hp]⟩
  obtain ⟨ys, zs, rfl⟩ := List.append_of_mem hx
  obtain ⟨-, hbelow, habove⟩ := List.pairwise_append.1 h.below
  rw [h.entries, List.flatMap_append, List.flatMap_cons, List.filter_append, List.filter_append,
    hother ys fun y hy => ?_, hother zs fun z hz => ?_, List.nil_append, List.append_nil]
  · refine ⟨by simp [hz], ?_⟩
    exact not_onLine_of_below ((List.pairwise_cons.1 hbelow).1 z hz)
      (h.startsLine z (by simp [hz])) hline
  · refine ⟨by simp [hy], fun hyline => ?_⟩
    exact not_onLine_of_below (habove y hy x List.mem_cons_self) (h.startsLine x hx) hyline hline

/-- **Each fragment answers for its characters.** -/
theorem resolve_entries {x : Laid} (hx : x ∈ xs) {a b : List Char} {c : Char}
    (hcode : x.fragment.code.toList = a ++ c :: b) :
    resolve (stableSort MapEntry.le d.entries) (Position.origin.after (x.front ++ a)) =
      x.fragment.original? (Position.origin.after a) := by
  have hline : x.OnLine (Position.origin.after (x.front ++ a)).line := ⟨a, c, b, hcode, rfl⟩
  have hordered : Ordered x.entries := (hxs x hx).ordered_entriesAfter
  rw [← resolve_filter_line (ordered_stableSort d.entries), filter_stableSort_entries,
    filter_line_entries h hxs hx hline, ← filter_stableSort_entries, stableSort_of_ordered hordered,
    resolve_filter_line hordered]
  exact (hxs x hx).resolve_entriesAfter a

/-- Lines without a character of a fragment do not answer. -/
theorem resolve_entries_eq_none {p : Position} (hp : ∀ x ∈ xs, ¬ x.OnLine p.line) :
    resolve (stableSort MapEntry.le d.entries) p = none := by
  refine resolve_eq_none fun e he heq => ?_
  obtain ⟨x, hx, -, hline⟩ := onLine_of_mem h hxs (mem_stableSort.1 he)
  exact hp x hx (heq ▸ hline)

end Finish

end Draft

/-! ### Inserting -/

namespace Position

/-- Before an insertion nothing moves. -/
theorem shift_of_lt {p spot : Position} (h : p < spot) (size : Position) : p.shift spot size = p := by
  rw [shift, if_pos h]

/-- Behind an insertion a position moves with the text that it follows. -/
theorem shift_after_append (front text rest : List Char) :
    (origin.after (front ++ rest)).shift (origin.after front) (origin.after text) =
      origin.after (front ++ text ++ rest) := by
  have hnot : ¬ (origin.after front).after rest < origin.after front :=
    not_lt.2 (le_after _ rest)
  rw [after_append, after_append, after_append, shift, if_neg hnot]
  generalize origin.after front = spot
  by_cases hr : breaks rest = 0
  · by_cases ht : breaks text = 0
    · simp [after, hr, ht, eq_iff]
      omega
    · simp [after, hr, ht]
  · by_cases ht : breaks text = 0
    · simp [after, hr, ht]
    · simp [after, hr, ht, eq_iff]
      omega

end Position

end SingleFile
