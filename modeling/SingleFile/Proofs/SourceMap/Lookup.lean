import Mathlib.Data.List.Basic
import SingleFile.Proofs.Order.Stable
import SingleFile.Proofs.Text.Position
import SingleFile.SourceMap.Compose
import SingleFile.SourceMap.Draft

/-!
# Resolving positions

A map answers from its entries, and its ranges answer for the columns behind them
(`original?_eq_map_resolve`).  The entry that answers for a position is the one that governs it
(`governing`).  Moving all entries in step moves what
they govern with them (`governing_map`).  In a list that is ordered by generated positions only the
entries of one line matter (`resolve_filter_line`), and entries that repeat the one before them do not
matter (`resolve_distinctAfter`).  `entries_ofEntries` gives the entries of a map that is made of
entries.
-/

namespace SingleFile

/-! ### Moving positions -/

namespace Position

theorem after_eq_offsetBy (p : Position) (cs : List Char) :
    p.after cs = p.offsetBy (origin.after cs) := by
  unfold after offsetBy
  split
  · next h => simp
  · next h => simp [h]

theorem line_offsetBy (base p : Position) : (base.offsetBy p).line = base.line + p.line := by
  unfold offsetBy
  split
  · next h => rw [h]; rfl
  · rfl

theorem origin_offsetBy (p : Position) : origin.offsetBy p = p := by
  unfold offsetBy
  split
  · next h => rw [line_origin, column_origin, Nat.zero_add, ← h]
  · rw [line_origin, Nat.zero_add]

theorem offsetBy_lt_iff {base p q : Position} : base.offsetBy p < base.offsetBy q ↔ p < q := by
  rw [lt_iff, lt_iff]
  unfold offsetBy
  split <;> split <;> constructor <;> intro h <;> simp only [true_and] at h ⊢ <;> omega

theorem offsetBy_le_iff {base p q : Position} : base.offsetBy p ≤ base.offsetBy q ↔ p ≤ q := by
  rw [← not_lt, ← not_lt, offsetBy_lt_iff]

end Position

/-! ### Answers of entries -/

def MapEntry.origin? (e : MapEntry) : Option Origin := e.source.map fun s => ⟨s, e.original, e.name⟩

/-- What entries say about a position: the first one at the position, or else the last one before
it, answers if it stands on the same line. -/
def resolve (es : List MapEntry) (p : Position) : Option Origin :=
  ((es.find? fun e => e.generated = p).or (es.filter fun e => e.generated < p).getLast?).bind fun e =>
    if e.generated.line = p.line then e.origin? else none

/-- Entries in the order of their generated positions. -/
def Ordered (es : List MapEntry) : Prop := es.Pairwise fun a b => a.generated ≤ b.generated

instance (es : List MapEntry) : Decidable (Ordered es) :=
  inferInstanceAs (Decidable (es.Pairwise fun a b : MapEntry => a.generated ≤ b.generated))

def Origin.advance (n : Nat) (o : Origin) : Origin :=
  { o with position := ⟨o.position.line, o.position.column + n⟩ }

theorem Origin.advance_zero : advance 0 = id := rfl

namespace SourceMap

/-- How far a position stands behind the mapping that answers for it, where this one is a range. -/
def stretch (map : SourceMap) (p : Position) : Nat :=
  match nearest map.mappings p with
  | some m => if m.range then p.column - m.generated.column else 0
  | none => 0

theorem originAt_eq_map (map : SourceMap) (m : Mapping) (p : Position) :
    map.originAt m p = (map.entry m).origin?.map
      (Origin.advance (if m.range then p.column - m.generated.column else 0)) := by
  unfold originAt MapEntry.origin? entry
  cases m.source with
  | none => rfl
  | some i =>
    show (map.sourceNames[i]?).bind _ = _
    simp only [Option.bind_some]
    cases map.sourceNames[i]? <;> rfl

end SourceMap

/-- The entry that governs a position: the first one at the position, or else the last one before it. -/
def governing (es : List MapEntry) (p : Position) : Option MapEntry :=
  (es.find? fun e => e.generated = p).or (es.filter fun e => e.generated < p).getLast?

/-- What governs a position answers for it, if it stands on the same line. -/
theorem resolve_eq_bind (es : List MapEntry) (p : Position) :
    resolve es p = (governing es p).bind fun e =>
      if e.generated.line = p.line then e.origin? else none := rfl

theorem mem_of_governing {es : List MapEntry} {p : Position} {e : MapEntry}
    (h : governing es p = some e) : e ∈ es ∧ e.generated ≤ p := by
  rcases Option.or_eq_some_iff.1 h with hfind | ⟨-, hlast⟩
  · have hp : e.generated = p := by simpa using List.find?_some hfind
    exact ⟨List.mem_of_find?_eq_some hfind, hp ▸ Position.le_refl p⟩
  · obtain ⟨he, hlt⟩ := List.mem_filter.1 (List.mem_of_getLast? hlast)
    exact ⟨he, Position.le_of_lt (by simpa using hlt)⟩

/-- Entries that move in step govern what moves with them. -/
theorem governing_map {f : MapEntry → MapEntry} {k : Position → Position}
    (hf : ∀ e, (f e).generated = k e.generated) (hk : ∀ p q, k p < k q ↔ p < q) (es : List MapEntry)
    (p : Position) : governing (es.map f) (k p) = (governing es p).map f := by
  have hinj (q : Position) : k q = k p ↔ q = p := by
    constructor
    · intro h
      apply Position.le_antisymm
      · rw [← Position.not_lt, ← hk, h]
        exact Position.lt_irrefl _
      · rw [← Position.not_lt, ← hk, h]
        exact Position.lt_irrefl _
    · intro h
      rw [h]
  have heq : (fun e : MapEntry => decide (e.generated = k p)) ∘ f =
      fun e => decide (e.generated = p) := by
    funext e
    simp only [Function.comp_apply, hf, hinj]
  have hlt : (fun e : MapEntry => decide (e.generated < k p)) ∘ f =
      fun e => decide (e.generated < p) := by
    funext e
    simp only [Function.comp_apply, hf, hk]
  unfold governing
  rw [List.find?_map, List.filter_map, List.getLast?_map, heq, hlt]
  cases es.find? fun e => e.generated = p <;> rfl

/-- Entries that say something else in the same places. -/
theorem resolve_map {f : MapEntry → MapEntry} {g : Origin → Origin}
    (hf : ∀ e, (f e).generated = e.generated) (hg : ∀ e, (f e).origin? = e.origin?.map g)
    (es : List MapEntry) (p : Position) : resolve (es.map f) p = (resolve es p).map g := by
  have hgoverning : governing (es.map f) p = (governing es p).map f :=
    governing_map (k := fun q => q) hf (fun _ _ => Iff.rfl) es p
  rw [resolve_eq_bind, resolve_eq_bind, hgoverning]
  cases governing es p with
  | none => rfl
  | some e =>
    simp only [Option.map_some, Option.bind_some, hf, hg]
    split <;> rfl

/-- The entry of the nearest mapping governs a position. -/
theorem governing_entries (map : SourceMap) (p : Position) :
    governing map.entries p = (SourceMap.nearest map.mappings p).map map.entry := by
  have hfind : map.entries.find? (fun e => e.generated = p) =
      (map.mappings.find? fun m => m.generated = p).map map.entry := List.find?_map
  have hlast : (map.entries.filter fun e => e.generated < p).getLast? =
      (map.mappings.filter fun m => m.generated < p).getLast?.map map.entry := by
    rw [SourceMap.entries, List.filter_map, List.getLast?_map]
    rfl
  unfold governing SourceMap.nearest
  rw [hfind, hlast]
  cases map.mappings.find? fun m => m.generated = p <;> rfl

theorem mem_of_nearest {ms : List Mapping} {p : Position} {m : Mapping}
    (h : SourceMap.nearest ms p = some m) : m ∈ ms := by
  unfold SourceMap.nearest at h
  split at h
  · next hfind =>
    obtain rfl := Option.some.inj h
    exact List.mem_of_find?_eq_some hfind
  · exact (List.mem_filter.1 (List.mem_of_getLast? h)).1

/-- A map answers from its entries, and ranges answer for the columns behind them. -/
theorem original?_eq_map_resolve (map : SourceMap) (p : Position) :
    map.original? p = (resolve map.entries p).map (Origin.advance (map.stretch p)) := by
  rw [resolve_eq_bind, governing_entries]
  unfold SourceMap.original? SourceMap.stretch
  cases SourceMap.nearest map.mappings p with
  | none => rfl
  | some m =>
    show (if m.generated.line = p.line then map.originAt m p else none) = Option.map _
      (if m.generated.line = p.line then (map.entry m).origin? else none)
    rw [SourceMap.originAt_eq_map]
    split <;> rfl

theorem stretch_eq_zero {map : SourceMap} (hmap : ∀ m ∈ map.mappings, m.range = false)
    (p : Position) : map.stretch p = 0 := by
  unfold SourceMap.stretch
  cases hm : SourceMap.nearest map.mappings p with
  | none => rfl
  | some m => simp [hmap m (mem_of_nearest hm)]

/-- A map without ranges answers from its entries alone. -/
theorem original?_eq_resolve {map : SourceMap} (hmap : ∀ m ∈ map.mappings, m.range = false)
    (p : Position) : map.original? p = resolve map.entries p := by
  rw [original?_eq_map_resolve, stretch_eq_zero hmap, Origin.advance_zero, Option.map_id_fun]
  rfl

/-- What answers is an entry on the line, at the position or before it. -/
theorem exists_of_resolve {es : List MapEntry} {p : Position} {o : Origin}
    (h : resolve es p = some o) :
    ∃ e ∈ es, e.generated.line = p.line ∧ e.generated ≤ p ∧ e.origin? = some o := by
  obtain ⟨e, he, hanswer⟩ := Option.bind_eq_some_iff.1 h
  obtain ⟨hline, ho⟩ : e.generated.line = p.line ∧ e.origin? = some o := by
    simpa using hanswer
  obtain ⟨hmem, hle⟩ := mem_of_governing he
  exact ⟨e, hmem, hline, hle, ho⟩

/-- A line without entries resolves to nothing. -/
theorem resolve_eq_none {es : List MapEntry} {p : Position}
    (h : ∀ e ∈ es, e.generated.line ≠ p.line) : resolve es p = none := by
  cases ho : resolve es p with
  | none => rfl
  | some o =>
    obtain ⟨e, he, hline, -⟩ := exists_of_resolve ho
    exact absurd hline (h e he)

/-- Before a position, the entries on its line come last. -/
theorem getLast?_filter_line {es : List MapEntry} (hes : Ordered es) (p : Position) :
    ((es.filter fun e => e.generated.line = p.line).filter fun e => e.generated < p).getLast? =
      (es.filter fun e => e.generated < p).getLast?.filter fun e => e.generated.line = p.line := by
  have hbefore : ∀ e ∈ es.filter fun e => e.generated < p, e.generated < p := fun e he => by
    simpa using (List.mem_filter.1 he).2
  have hordered : Ordered (es.filter fun e => e.generated < p) := hes.filter _
  rw [List.filter_comm]
  generalize es.filter (fun e => e.generated < p) = before at hbefore hordered
  rcases List.eq_nil_or_concat before with rfl | ⟨init, x, rfl⟩
  · rfl
  · rw [List.concat_eq_append] at hbefore hordered ⊢
    rw [List.getLast?_concat, List.filter_append]
    by_cases hx : x.generated.line = p.line
    · simp [hx, Option.filter]
    · have hlast := hbefore x (by simp)
      have hnone : init.filter (fun e => e.generated.line = p.line) = [] := by
        refine List.filter_eq_nil_iff.2 fun e he => ?_
        have hle : e.generated ≤ x.generated :=
          (List.pairwise_append.1 hordered).2.2 e he x List.mem_cons_self
        rw [Position.lt_iff] at hlast
        rw [Position.le_iff] at hle
        simp only [decide_eq_true_eq]
        omega
      simp [hx, hnone, Option.filter]

/-- Only the entries of the line count. -/
theorem resolve_filter_line {es : List MapEntry} (hes : Ordered es) (p : Position) :
    resolve (es.filter fun e => e.generated.line = p.line) p = resolve es p := by
  have hfind : (es.filter fun e => e.generated.line = p.line).find? (fun e => e.generated = p) =
      es.find? fun e => e.generated = p := by
    rw [List.find?_filter]
    refine congrArg (fun f => es.find? f) (funext fun e => ?_)
    by_cases h : e.generated = p <;> simp [h]
  unfold resolve
  rw [hfind, getLast?_filter_line hes p]
  cases es.find? fun e => e.generated = p with
  | some e => rfl
  | none =>
    cases (es.filter fun e => e.generated < p).getLast? with
    | none => rfl
    | some e => by_cases h : e.generated.line = p.line <;> simp [h, Option.filter]

/-! ### Entries in order -/

/-- In order, the last entry is behind all others. -/
theorem generated_le_of_getLast? {es : List MapEntry} (hes : Ordered es) {d e : MapEntry}
    (hd : es.getLast? = some d) (he : e ∈ es) : e.generated ≤ d.generated := by
  obtain ⟨init, rfl⟩ := List.getLast?_eq_some_iff.1 hd
  rcases List.mem_append.1 he with he | he
  · exact (List.pairwise_append.1 hes).2.2 e he d List.mem_cons_self
  · rw [List.mem_singleton.1 he]
    exact Position.le_refl _

/-- What governs a position governs all between its own place and this position. -/
theorem governing_of_lt {es : List MapEntry} (hes : Ordered es) {p q : Position} {e : MapEntry}
    (h : governing es p = some e) (hlt : e.generated < q) (hle : q ≤ p) :
    governing es q = some e := by
  rcases Option.or_eq_some_iff.1 h with hfind | ⟨hnone, hlast⟩
  · have hp : e.generated = p := by simpa using List.find?_some hfind
    rw [hp, ← Position.not_le] at hlt
    exact absurd hle hlt
  · -- nothing stands at the position or between the two
    have hbehind : ∀ x ∈ es, x.generated < p → x.generated < q := by
      intro x hx hxp
      have hxe := generated_le_of_getLast? (hes.filter _) hlast
        (List.mem_filter.2 ⟨hx, decide_eq_true hxp⟩)
      exact Position.lt_of_le_of_lt hxe hlt
    have hfilter : (es.filter fun x => x.generated < q) = es.filter fun x => x.generated < p := by
      apply List.filter_congr
      intro x hx
      exact decide_eq_decide.2 ⟨fun hxq => Position.lt_of_lt_of_le hxq hle, hbehind x hx⟩
    have hnot : (es.find? fun x => x.generated = q) = none := by
      rw [List.find?_eq_none]
      intro x hx hxq
      have hxq : x.generated = q := by simpa using hxq
      have hxp : x.generated ≠ p := by simpa using List.find?_eq_none.1 hnone x hx
      have hxq' := hbehind x hx (Position.lt_of_le_of_ne (hxq ▸ hle) hxp)
      exact Position.lt_irrefl q (hxq ▸ hxq')
    unfold governing
    rw [hnot, hfilter, hlast, Option.none_or]

/-- Where an entry stands at a position or before it, something governs the position. -/
theorem exists_governing {es : List MapEntry} {p : Position} {e : MapEntry} (he : e ∈ es)
    (hle : e.generated ≤ p) : ∃ d, governing es p = some d := by
  unfold governing
  cases hfind : es.find? fun x => x.generated = p with
  | some d => exact ⟨d, rfl⟩
  | none =>
    have hne : e.generated ≠ p := by simpa using List.find?_eq_none.1 hfind e he
    have hmem : e ∈ es.filter fun x => x.generated < p :=
      List.mem_filter.2 ⟨he, decide_eq_true (Position.lt_of_le_of_ne hle hne)⟩
    cases hlast : (es.filter fun x => x.generated < p).getLast? with
    | none => exact absurd hmem (List.getLast?_eq_none_iff.1 hlast ▸ List.not_mem_nil)
    | some d => exact ⟨d, rfl⟩

/-- What governs a position comes behind all other entries up to this position. -/
theorem le_of_governing {es : List MapEntry} (hes : Ordered es) {p : Position} {d e : MapEntry}
    (hd : governing es p = some d) (he : e ∈ es) (hle : e.generated ≤ p) :
    e.generated ≤ d.generated := by
  rcases Option.or_eq_some_iff.1 hd with hfind | ⟨hnone, hlast⟩
  · have hp : d.generated = p := by simpa using List.find?_some hfind
    rwa [hp]
  · have hne : e.generated ≠ p := by simpa using List.find?_eq_none.1 hnone e he
    exact generated_le_of_getLast? (hes.filter _) hlast
      (List.mem_filter.2 ⟨he, decide_eq_true (Position.lt_of_le_of_ne hle hne)⟩)

/-- Where an entry with a source stands on the line at a position or before it, something answers. -/
theorem exists_resolve {es : List MapEntry} (hes : Ordered es)
    (hsourced : ∀ e ∈ es, e.source.isSome = true) {p : Position} {e : MapEntry} (he : e ∈ es)
    (hline : e.generated.line = p.line) (hle : e.generated ≤ p) : ∃ o, resolve es p = some o := by
  obtain ⟨d, hd⟩ := exists_governing he hle
  obtain ⟨hmem, hdp⟩ := mem_of_governing hd
  obtain ⟨s, hs⟩ := Option.isSome_iff_exists.1 (hsourced d hmem)
  have hdline : d.generated.line = p.line := by
    have hed := le_of_governing hes hd he hle
    rw [Position.le_iff] at hed hdp
    omega
  refine ⟨⟨s, d.original, d.name⟩, ?_⟩
  rw [resolve_eq_bind, hd, Option.bind_some, if_pos hdline, MapEntry.origin?, hs]
  rfl

/-- Where all entries have sources, nothing answers just where none stands on the line so far. -/
theorem resolve_eq_none_iff {es : List MapEntry} (hes : Ordered es)
    (hsourced : ∀ e ∈ es, e.source.isSome = true) {p : Position} :
    resolve es p = none ↔ ∀ e ∈ es, e.generated.line = p.line → ¬ e.generated ≤ p := by
  constructor
  · intro hnone e he hline hle
    obtain ⟨o, ho⟩ := exists_resolve hes hsourced he hline hle
    rw [hnone] at ho
    cases ho
  · intro hfar
    cases ho : resolve es p with
    | none => rfl
    | some o =>
      obtain ⟨e, he, hline, hle, -⟩ := exists_of_resolve ho
      exact absurd hle (hfar e he hline)

/-! ### Entries that repeat the one before them -/

/-- The entries that differ from the one before them. -/
def distinctAfter : Option MapEntry → List MapEntry → List MapEntry
  | _, [] => []
  | none, e :: es => e :: distinctAfter (some e) es
  | some d, e :: es => if e = d then distinctAfter (some e) es else e :: distinctAfter (some e) es

theorem find?_distinctAfter {f : MapEntry → Bool} {d : MapEntry} (hd : f d = false)
    (es : List MapEntry) : (distinctAfter (some d) es).find? f = es.find? f := by
  induction es generalizing d with
  | nil => rfl
  | cons e es ih =>
    rw [distinctAfter]
    by_cases hf : f e = true
    · rw [if_neg (by rintro rfl; rw [hd] at hf; exact absurd hf (by simp)),
        List.find?_cons_of_pos hf, List.find?_cons_of_pos hf]
    · have hf' := Bool.eq_false_iff.2 hf
      split
      · rw [ih hf', List.find?_cons_of_neg hf]
      · rw [List.find?_cons_of_neg hf, List.find?_cons_of_neg hf, ih hf']

theorem getLast?_filter_cons (f : MapEntry → Bool) (d : MapEntry) (es : List MapEntry) :
    ((d :: es).filter f).getLast? = (es.filter f).getLast?.or (if f d then some d else none) := by
  by_cases hd : f d = true
  · rw [List.filter_cons_of_pos hd, if_pos hd, List.getLast?_cons]
    cases (es.filter f).getLast? <;> rfl
  · rw [List.filter_cons_of_neg hd, if_neg hd, Option.or_none]

theorem getLast?_filter_distinctAfter (f : MapEntry → Bool) (d : MapEntry) (es : List MapEntry) :
    ((d :: distinctAfter (some d) es).filter f).getLast? = ((d :: es).filter f).getLast? := by
  induction es generalizing d with
  | nil => rfl
  | cons e es ih =>
    have hih := ih e
    rw [distinctAfter]
    split
    · next h =>
      subst h
      rw [hih, getLast?_filter_cons f e (e :: es), getLast?_filter_cons f e es]
      by_cases he : f e = true
      · rw [if_pos he, Option.or_assoc, Option.or_some]
        cases (es.filter f).getLast? <;> rfl
      · rw [if_neg he, Option.or_none, Option.or_none]
    · rw [getLast?_filter_cons, hih, ← getLast?_filter_cons]

/-- Entries that repeat the one before them do not matter. -/
theorem resolve_distinctAfter (es : List MapEntry) (p : Position) :
    resolve (distinctAfter none es) p = resolve es p := by
  cases es with
  | nil => rfl
  | cons e es =>
    have hfind (f : MapEntry → Bool) : (distinctAfter none (e :: es)).find? f = (e :: es).find? f := by
      rw [distinctAfter]
      by_cases hf : f e = true
      · rw [List.find?_cons_of_pos hf, List.find?_cons_of_pos hf]
      · rw [List.find?_cons_of_neg hf, List.find?_cons_of_neg hf,
          find?_distinctAfter (Bool.eq_false_iff.2 hf)]
    unfold resolve
    rw [hfind, distinctAfter, getLast?_filter_distinctAfter]

theorem mem_distinctAfter_some {e d : MapEntry} {es : List MapEntry} :
    e ∈ d :: distinctAfter (some d) es ↔ e ∈ d :: es := by
  induction es generalizing d with
  | nil => rfl
  | cons x es ih =>
    rw [distinctAfter, List.mem_cons]
    split
    · next h =>
      subst h
      rw [← List.mem_cons, ih, List.mem_cons, List.mem_cons, List.mem_cons, ← or_assoc, or_self]
    · rw [ih, List.mem_cons (b := d)]

/-- Every entry is one that differs from the one before it. -/
theorem mem_distinctAfter {e : MapEntry} {es : List MapEntry} :
    e ∈ distinctAfter none es ↔ e ∈ es := by
  cases es with
  | nil => rfl
  | cons x es => exact mem_distinctAfter_some

/-! ### Moved entries -/

/-- The entry of a text that starts at `base`. -/
def MapEntry.moveTo (base : Position) (e : MapEntry) : MapEntry :=
  { e with generated := base.offsetBy e.generated }

/-- Moving a text moves its answers. -/
theorem resolve_map_moveTo (base : Position) (es : List MapEntry) (p : Position) :
    resolve (es.map (MapEntry.moveTo base)) (base.offsetBy p) = resolve es p := by
  have hanswer (e : MapEntry) : (if (e.moveTo base).generated.line = (base.offsetBy p).line
      then (e.moveTo base).origin? else none) =
        if e.generated.line = p.line then e.origin? else none := by
    refine if_congr ?_ rfl rfl
    rw [show (e.moveTo base).generated = base.offsetBy e.generated from rfl,
      Position.line_offsetBy, Position.line_offsetBy]
    omega
  rw [resolve_eq_bind, resolve_eq_bind,
    governing_map (fun _ => rfl) (fun _ _ => Position.offsetBy_lt_iff) es p]
  cases governing es p with
  | none => rfl
  | some e => exact hanswer e

theorem ordered_map_moveTo {es : List MapEntry} (hes : Ordered es) (base : Position) :
    Ordered (es.map (MapEntry.moveTo base)) :=
  List.pairwise_map.2 (hes.imp Position.offsetBy_le_iff.2)

theorem movedEntries_eq {map : SourceMap} (h : ∀ e ∈ map.entries, e.source.isSome = true)
    (base : Position) :
    Draft.movedEntries base map = map.entries.map (MapEntry.moveTo base) := by
  rw [Draft.movedEntries, List.filter_eq_self.2 h]
  rfl

/-! ### Maps that are made of entries -/

abbrev MapEntry.le (a b : MapEntry) : Bool := decide (a.generated ≤ b.generated)

theorem ordered_stableSort (es : List MapEntry) : Ordered (stableSort MapEntry.le es) := by
  have htotal (a b : MapEntry) : a.le b = true ∨ b.le a = true := by
    simpa using Position.le_total a.generated b.generated
  have htrans (a b c : MapEntry) (hab : a.le b = true) (hbc : b.le c = true) : a.le c = true := by
    simpa using Position.le_trans (by simpa using hab) (by simpa using hbc)
  exact (pairwise_stableSort htotal htrans es).imp (by simp)

theorem stableSort_of_ordered {es : List MapEntry} (h : Ordered es) :
    stableSort MapEntry.le es = es :=
  stableSort_of_pairwise (h.imp (by simp))

theorem filter_stableSort_entries (p : MapEntry → Bool) (es : List MapEntry) :
    (stableSort MapEntry.le es).filter p = stableSort MapEntry.le (es.filter p) :=
  filter_stableSort (fun a b => by simpa using Position.le_total a.generated b.generated)
    (fun a b c hab hbc => by simpa using Position.le_trans (by simpa using hab) (by simpa using hbc))
    p es

/-- What is listed is found again by its index. -/
theorem bind_getElem?_idxOf {xs : List String} {x : Option String} (h : ∀ a ∈ x, a ∈ xs) :
    (x.map xs.idxOf).bind (fun i => xs[i]?) = x := by
  cases x with
  | none => rfl
  | some a => exact List.getElem?_idxOf (h a rfl)

namespace SourceMap

/-- A source name as it is reported under a root, if there is one. -/
def rooted (root : Option String) (name : String) : String :=
  match root with
  | some root => if root.isEmpty then name else underRoot root name
  | none => name

theorem sourceNames_eq_map (map : SourceMap) :
    map.sourceNames = map.sources.map (rooted map.sourceRoot) := by
  unfold sourceNames rooted
  cases map.sourceRoot with
  | none => exact (List.map_id' _).symm
  | some root =>
    show (if root.isEmpty then _ else _) = _
    by_cases hroot : root.isEmpty = true
    · simp only [hroot, if_true, List.map_id']
    · simp only [hroot, Bool.false_eq_true, if_false]

end SourceMap

def MapEntry.rename (f : String → String) (e : MapEntry) : MapEntry :=
  { e with source := e.source.map f }

/-- What is listed is found again by its index, under its new name. -/
theorem bind_getElem?_map_idxOf {f : String → String} {xs : List String} {x : Option String}
    (h : ∀ a ∈ x, a ∈ xs) : (x.map xs.idxOf).bind (fun i => (xs.map f)[i]?) = x.map f := by
  cases x with
  | none => rfl
  | some a =>
    show (xs.map f)[xs.idxOf a]? = some (f a)
    rw [List.getElem?_map, List.getElem?_idxOf (h a rfl)]
    rfl

/-- Sorting mappings sorts what is made of them. -/
theorem map_sortMappings {f : Mapping → MapEntry} (hf : ∀ m, (f m).generated = m.generated)
    (ms : List Mapping) : (SourceMap.sortMappings ms).map f = stableSort MapEntry.le (ms.map f) :=
  map_stableSort (fun a b => by rw [MapEntry.le, hf, hf]) ms

/-- A map made of entries has these entries, in order, with their sources under its root. -/
theorem entries_ofEntries_rooted (file root : Option String) (es : List MapEntry)
    (contents : List (String × String)) :
    (SourceMap.ofEntries file root es contents).entries =
      stableSort MapEntry.le (es.map (MapEntry.rename (SourceMap.rooted root))) := by
  refine (map_sortMappings (fun _ => rfl) _).trans (congrArg (stableSort MapEntry.le) ?_)
  rw [List.map_map]
  refine List.map_congr_left fun e he => ?_
  have hsource : ∀ a ∈ e.source, a ∈ (SourceMap.ofEntries file root es contents).sources :=
    fun a ha => mem_firstUses.2 (List.mem_append_left _ (List.mem_filterMap.2 ⟨e, he, ha⟩))
  have hname : ∀ a ∈ e.name, a ∈ (SourceMap.ofEntries file root es contents).names :=
    fun a ha => mem_firstUses.2 (List.mem_filterMap.2 ⟨e, he, ha⟩)
  obtain ⟨generated, original, source, name⟩ := e
  show MapEntry.mk generated original _ _ = MapEntry.mk generated original _ name
  rw [MapEntry.mk.injEq, SourceMap.sourceNames_eq_map]
  exact ⟨rfl, rfl, bind_getElem?_map_idxOf hsource, bind_getElem?_idxOf hname⟩

/-- A map made of entries has these entries, in order. -/
theorem entries_ofEntries (file : Option String) (es : List MapEntry)
    (contents : List (String × String)) :
    (SourceMap.ofEntries file none es contents).entries = stableSort MapEntry.le es := by
  have hrename (e : MapEntry) : e.rename (SourceMap.rooted none) = e := by
    obtain ⟨generated, original, source, name⟩ := e
    cases source <;> rfl
  rw [entries_ofEntries_rooted, List.map_congr_left fun e _ => hrename e, List.map_id']

/-- Under no root, composing two maps traces the entries of the second one through the first. -/
theorem entries_merge {old : SourceMap} (hroot : old.sourceRoot = none) (new : SourceMap) :
    (SourceMap.merge old new).entries =
      stableSort MapEntry.le (new.entries.filterMap old.trace) := by
  unfold SourceMap.merge
  rw [hroot, entries_ofEntries]

theorem mem_entries_merge {old new : SourceMap} (hroot : old.sourceRoot = none) {e : MapEntry} :
    e ∈ (SourceMap.merge old new).entries ↔ ∃ x ∈ new.entries, old.trace x = some e := by
  rw [entries_merge hroot, mem_stableSort, List.mem_filterMap]

theorem ordered_of_sorted {map : SourceMap} {ms : List Mapping}
    (h : map.mappings = SourceMap.sortMappings ms) : Ordered map.entries := by
  have hplace (m : Mapping) : (map.entry m).generated = m.generated := rfl
  rw [SourceMap.entries, h, map_sortMappings hplace]
  exact ordered_stableSort _

/-- A map that is made of mappings is in order, whatever the order of these. -/
theorem ordered_ofEntries (file root : Option String) (es : List MapEntry)
    (contents : List (String × String)) :
    Ordered (SourceMap.ofEntries file root es contents).entries :=
  ordered_of_sorted rfl

theorem range_ofEntries {file root : Option String} {es : List MapEntry}
    {contents : List (String × String)} {m : Mapping}
    (hm : m ∈ (SourceMap.ofEntries file root es contents).mappings) : m.range = false := by
  obtain ⟨e, -, rfl⟩ := List.mem_map.1 (mem_stableSort.1 hm)
  rfl

end SingleFile
