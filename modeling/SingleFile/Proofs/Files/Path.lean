import SingleFile.Files.Path
import SingleFile.Proofs.Text.Search

/-!
# The parts of paths

A path is read by its parts: the root, where it is absolute, and what its segments stand for
(`parts_eq`).  Reading goes through joining (`inner_join`), and parts that are written out are read
back (`parts_ofParts`).  The parts of the path above are all but the last one, where the last one is
a name (`inner_parent`, `isAbsolute_parent`).
-/

namespace SingleFile.Path

/-- The parts that the segments of a path stand for. -/
def inner (path : List Char) : List Part := (splitAt '/' path).filterMap innerPart?

/-- The root, where a path is absolute. -/
def lead (absolute : Bool) : List Part := if absolute then [.root] else []

def Part.IsInner (p : Part) : Prop := innerPart? p.chars = some p ∧ '/' ∉ p.chars

theorem chars_of_innerPart? {segment : List Char} {p : Part} (h : innerPart? segment = some p) :
    p.chars = segment := by
  unfold innerPart? at h
  split at h
  · cases h
  · split at h
    · next hup =>
      obtain rfl := Option.some.inj h
      exact hup.symm
    · obtain rfl := Option.some.inj h
      rfl

theorem isInner_of_mem {path : List Char} {p : Part} (h : p ∈ inner path) : p.IsInner := by
  obtain ⟨segment, hmem, hp⟩ := List.mem_filterMap.1 h
  have hchars := chars_of_innerPart? hp
  refine ⟨hchars.symm ▸ hp, ?_⟩
  rw [hchars]
  exact notMem_of_mem_splitAt hmem

theorem isInner_up : Part.up.IsInner := ⟨rfl, by decide⟩

namespace Part.IsInner

variable {p : Part}

theorem chars_ne_nil (h : p.IsInner) : p.chars ≠ [] := by
  intro hnil
  have hp := h.1
  rw [hnil] at hp
  cases hp

theorem chars_ne_dot (h : p.IsInner) : p.chars ≠ ['.'] := by
  intro hdot
  have hp := h.1
  rw [hdot] at hp
  cases hp

theorem isAbsolute_eq (h : p.IsInner) (more : List Char) : isAbsolute (p.chars ++ more) = false := by
  obtain ⟨c, r, hcr⟩ := List.exists_cons_of_ne_nil h.chars_ne_nil
  have hslash : c ≠ '/' := by
    rintro rfl
    exact h.2 (hcr ▸ List.mem_cons_self)
  rw [hcr]
  simpa [isAbsolute] using hslash

theorem getLast?_ne (h : p.IsInner) (front : List Char) :
    (front ++ p.chars).getLast? ≠ some '/' := by
  intro hlast
  rw [List.getLast?_append_of_ne_nil front h.chars_ne_nil] at hlast
  exact h.2 (List.mem_of_getLast? hlast)

end Part.IsInner

/-! ### Reading -/

theorem parts_eq (path : List Char) : parts path = lead (isAbsolute path) ++ inner path ∨
    parts path = .here :: inner path ∧ isAbsolute path = false := by
  unfold parts
  dsimp only
  split
  · next h => exact .inl (by rw [h]; rfl)
  · next h =>
    rw [Bool.not_eq_true] at h
    rw [h]
    split
    · exact .inr ⟨rfl, rfl⟩
    · exact .inl rfl

theorem parts_of_head {path : List Char} (h : (splitAt '/' path).head? ≠ some ['.']) :
    parts path = lead (isAbsolute path) ++ inner path := by
  unfold parts
  dsimp only
  rw [if_neg h]
  split
  · next habs => rw [habs]; rfl
  · next habs => rw [Bool.eq_false_iff.2 habs]; rfl

theorem inner_append_slash (a b : List Char) : inner (a ++ '/' :: b) = inner a ++ inner b := by
  rw [inner, splitAt_append_sep, List.filterMap_append]
  rfl

theorem isAbsolute_join (base added : List Char) :
    isAbsolute (join base added) = (isAbsolute added || isAbsolute base) := by
  unfold join
  split
  · next h => rw [h, Bool.true_or]
  · next h =>
    rw [Bool.eq_false_iff.2 h, Bool.false_or]
    cases base with
    | nil => exact Bool.eq_false_iff.2 h
    | cons c r => split <;> rfl

/-- The parts of a joined path are those of both, where the second one does not stand alone. -/
theorem inner_join {base added : List Char} (h : isAbsolute added = false) :
    inner (join base added) = inner base ++ inner added := by
  unfold join
  rw [h, if_neg (by simp)]
  split
  · next hbase =>
    rcases List.eq_nil_or_concat base with rfl | ⟨front, c, rfl⟩
    · rfl
    · obtain rfl : c = '/' := by simpa using hbase
      rw [List.concat_eq_append, List.append_assoc, List.singleton_append, inner_append_slash,
        inner_append_slash]
      simp [inner, splitAt, innerPart?]
  · exact inner_append_slash base added

/-! ### Writing -/

theorem join_of_isInner {p : Part} {base : List Char} (hp : p.IsInner) (hne : base ≠ [])
    (hlast : base.getLast? ≠ some '/') : join base p.chars = base ++ '/' :: p.chars := by
  unfold join
  rw [if_neg (by simpa using hp.isAbsolute_eq []), if_neg (by simp [hne, hlast])]

theorem foldl_join {base : List Char} {ps : List Part} (hps : ∀ p ∈ ps, p.IsInner) (hne : base ≠ [])
    (hlast : base.getLast? ≠ some '/') :
    ps.foldl (fun path p => join path p.chars) base = base ++ ps.flatMap fun p => '/' :: p.chars := by
  induction ps generalizing base with
  | nil => simp
  | cons p ps ih =>
    have hp := hps p List.mem_cons_self
    have hlast' : (base ++ '/' :: p.chars).getLast? ≠ some '/' := by
      simpa using hp.getLast?_ne (base ++ ['/'])
    rw [List.foldl_cons, join_of_isInner hp hne hlast,
      ih (fun q hq => hps q (List.mem_cons_of_mem p hq)) (by simp) hlast', List.flatMap_cons,
      List.append_assoc]

/-- The text of parts: each one behind the first one follows a slash. -/
theorem ofParts_cons {p : Part} {ps : List Part} (hp : p.IsInner) (hps : ∀ q ∈ ps, q.IsInner) :
    ofParts (p :: ps) = p.chars ++ ps.flatMap fun q => '/' :: q.chars := by
  have hfirst : join [] p.chars = p.chars := by
    unfold join
    rw [if_neg (by simpa using hp.isAbsolute_eq [])]
    rfl
  rw [ofParts, List.foldl_cons, hfirst, foldl_join hps hp.chars_ne_nil (hp.getLast?_ne [])]

theorem ofParts_root_cons {p : Part} {ps : List Part} (hp : p.IsInner) (hps : ∀ q ∈ ps, q.IsInner) :
    ofParts (.root :: p :: ps) = '/' :: ofParts (p :: ps) := by
  have hfirst : join ['/'] p.chars = '/' :: p.chars := by
    unfold join
    rw [if_neg (by simpa using hp.isAbsolute_eq [])]
    rfl
  have hroot : join [] Part.root.chars = ['/'] := rfl
  have hlast : ('/' :: p.chars).getLast? ≠ some '/' := hp.getLast?_ne ['/']
  rw [ofParts_cons hp hps, ofParts, List.foldl_cons, List.foldl_cons, hroot, hfirst,
    foldl_join hps (by simp) hlast, List.cons_append]

theorem splitAt_segments {a : List Char} {segments : List (List Char)} (ha : '/' ∉ a)
    (h : ∀ s ∈ segments, '/' ∉ s) :
    splitAt '/' (a ++ segments.flatMap ('/' :: ·)) = a :: segments := by
  induction segments generalizing a with
  | nil => simpa using splitAt_of_notMem ha
  | cons s segments ih =>
    rw [List.flatMap_cons, List.cons_append, splitAt_append_sep, splitAt_of_notMem ha,
      ih (h s List.mem_cons_self) fun t ht => h t (List.mem_cons_of_mem s ht)]
    rfl

theorem splitAt_ofParts {p : Part} {ps : List Part} (hp : p.IsInner) (hps : ∀ q ∈ ps, q.IsInner) :
    splitAt '/' (ofParts (p :: ps)) = p.chars :: ps.map Part.chars := by
  have hmap : ps.flatMap (fun q => '/' :: q.chars) = (ps.map Part.chars).flatMap ('/' :: ·) :=
    (List.flatMap_map ..).symm
  rw [ofParts_cons hp hps, hmap, splitAt_segments hp.2]
  rintro s hs
  obtain ⟨q, hq, rfl⟩ := List.mem_map.1 hs
  exact (hps q hq).2

theorem filterMap_chars {ps : List Part} (hps : ∀ p ∈ ps, p.IsInner) :
    (ps.map Part.chars).filterMap innerPart? = ps := by
  rw [List.filterMap_map]
  refine (List.filterMap_congr fun p hp => (hps p hp).1).trans ?_
  exact List.filterMap_some

/-- Parts that are written out are read back. -/
theorem parts_ofParts (absolute : Bool) {ps : List Part} (hps : ∀ p ∈ ps, p.IsInner) :
    parts (ofParts (lead absolute ++ ps)) = lead absolute ++ ps := by
  cases ps with
  | nil => cases absolute <;> rfl
  | cons p ps =>
    have hp := hps p List.mem_cons_self
    have hps' := fun q hq => hps q (List.mem_cons_of_mem p hq)
    have hsplit := splitAt_ofParts hp hps'
    have hinner : inner (ofParts (p :: ps)) = p :: ps := by
      rw [inner, hsplit]
      exact filterMap_chars hps
    cases absolute with
    | false =>
      have habs : isAbsolute (ofParts (p :: ps)) = false := by
        rw [ofParts_cons hp hps', hp.isAbsolute_eq]
      show parts (ofParts (p :: ps)) = p :: ps
      rw [parts_of_head, habs, hinner]
      · rfl
      · rw [hsplit]
        exact fun h => hp.chars_ne_dot (Option.some.inj h)
    | true =>
      show parts (ofParts (.root :: p :: ps)) = .root :: p :: ps
      rw [ofParts_root_cons hp hps', parts_of_head]
      · have hslash : inner ('/' :: ofParts (p :: ps)) = p :: ps := by
          rw [← List.nil_append ('/' :: _), inner_append_slash, hinner]
          rfl
        rw [hslash]
        rfl
      · rw [splitAt_cons_sep]
        exact fun h => nomatch h

/-! ### The path above -/

theorem intercalate_cons (a : List Char) (segments : List (List Char)) :
    List.intercalate ['/'] (a :: segments) = a ++ segments.flatMap ('/' :: ·) := by
  induction segments generalizing a with
  | nil => simp
  | cons s segments ih => rw [List.intercalate_cons_cons, ih, List.flatMap_cons, List.append_assoc]; rfl

theorem dropSilent_suffix (absolute : Bool) (segments : List (List Char)) :
    dropSilent absolute segments <:+ segments := by
  fun_induction dropSilent absolute segments with
  | case1 => exact List.suffix_refl []
  | case2 first h => exact List.nil_suffix
  | case3 first h => exact List.suffix_refl _
  | case4 segment before _ h ih => exact ih.trans (List.suffix_cons segment before)
  | case5 segment before _ h => exact List.suffix_refl _

theorem innerPart?_eq_none {segment : List Char} (h : segment = [] ∨ segment = ['.']) :
    innerPart? segment = none := by
  unfold innerPart?
  rw [if_pos h]

/-- What is dropped from the end of a path stands for nothing. -/
theorem filterMap_dropSilent (absolute : Bool) (segments : List (List Char)) :
    (dropSilent absolute segments).filterMap innerPart? = segments.filterMap innerPart? := by
  fun_induction dropSilent absolute segments with
  | case1 => rfl
  | case2 first h =>
    rw [List.filterMap_cons_none (innerPart?_eq_none (h.imp_right And.right))]
  | case3 first h => rfl
  | case4 segment before _ h ih => rw [ih, List.filterMap_cons_none (innerPart?_eq_none h)]
  | case5 segment before _ h => rfl

/-- The last part stands at the end once that is dropped. -/
theorem dropSilent_of_filterMap (absolute : Bool) {segments : List (List Char)} {p : Part}
    {more : List Part} (h : segments.filterMap innerPart? = p :: more) :
    ∃ before, dropSilent absolute segments = p.chars :: before ∧
      before.filterMap innerPart? = more := by
  fun_induction dropSilent absolute segments with
  | case1 => cases h
  | case2 first hfirst =>
    rw [List.filterMap_cons_none (innerPart?_eq_none (hfirst.imp_right And.right))] at h
    cases h
  | case3 first _ =>
    cases hp : innerPart? first with
    | none =>
      rw [List.filterMap_cons_none hp] at h
      cases h
    | some q =>
      rw [List.filterMap_cons_some hp] at h
      obtain ⟨rfl, rfl⟩ := List.cons.inj h
      exact ⟨[], by rw [chars_of_innerPart? hp], rfl⟩
  | case4 segment before _ hsilent ih =>
    rw [List.filterMap_cons_none (innerPart?_eq_none hsilent)] at h
    exact ih h
  | case5 segment before _ hsilent =>
    have hp : ∃ q, innerPart? segment = some q := by
      unfold innerPart?
      rw [if_neg hsilent]
      split <;> exact ⟨_, rfl⟩
    obtain ⟨q, hp⟩ := hp
    rw [List.filterMap_cons_some hp] at h
    obtain ⟨rfl, rfl⟩ := List.cons.inj h
    exact ⟨before, by rw [chars_of_innerPart? hp], rfl⟩

def body (path : List Char) : List Char := if isAbsolute path then path.drop 1 else path

theorem inner_body (path : List Char) : inner (body path) = inner path := by
  unfold body
  split
  · next h =>
    cases path with
    | nil => rfl
    | cons c r =>
      obtain rfl : c = '/' := by simpa [isAbsolute] using h
      rw [← List.nil_append ('/' :: r), inner_append_slash]
      rfl
  · rfl

theorem inner_intercalate {segments : List (List Char)} (h : ∀ s ∈ segments, '/' ∉ s) :
    inner (List.intercalate ['/'] segments) = segments.filterMap innerPart? := by
  cases segments with
  | nil => rfl
  | cons a segments =>
    rw [intercalate_cons, inner, splitAt_segments (h a List.mem_cons_self)]
    exact fun s hs => h s (List.mem_cons_of_mem a hs)

theorem inner_ofBackwards {absolute : Bool} {segments : List (List Char)}
    (h : ∀ s ∈ segments, '/' ∉ s) :
    inner (ofBackwards absolute segments) = (segments.filterMap innerPart?).reverse := by
  have hreverse : ∀ s ∈ segments.reverse, '/' ∉ s := fun s hs => h s (List.mem_reverse.1 hs)
  have htext := inner_intercalate hreverse
  rw [List.filterMap_reverse] at htext
  unfold ofBackwards
  cases absolute with
  | false => exact htext
  | true =>
    rw [← htext]
    exact inner_append_slash [] _

/-- A path that is not absolute does not start with an empty segment. -/
theorem first_ne_nil {path first : List Char} (habs : isAbsolute path = false) (hne : path ≠ [])
    (h : (splitAt '/' path).head? = some first) : first ≠ [] := by
  obtain ⟨c, r, rfl⟩ := List.exists_cons_of_ne_nil hne
  have hc : c ≠ '/' := by simpa [isAbsolute] using habs
  obtain ⟨piece, pieces, hr⟩ := List.exists_cons_of_ne_nil (splitAt_ne_nil '/' r)
  rw [splitAt, if_neg hc, hr] at h
  obtain rfl := Option.some.inj h
  exact List.cons_ne_nil c piece

theorem isAbsolute_ofBackwards {absolute : Bool} {segments : List (List Char)}
    (hslash : ∀ s ∈ segments, '/' ∉ s)
    (hfirst : absolute = false → ∀ s, segments.getLast? = some s → s ≠ []) :
    isAbsolute (ofBackwards absolute segments) = absolute := by
  unfold ofBackwards
  cases absolute with
  | true => rfl
  | false =>
    rcases List.eq_nil_or_concat segments with rfl | ⟨front, s, rfl⟩
    · rfl
    · obtain ⟨c, r, rfl⟩ := List.exists_cons_of_ne_nil (hfirst rfl s (by simp))
      have hc : c ≠ '/' := by
        rintro rfl
        exact hslash ('/' :: r) (by simp) List.mem_cons_self
      show isAbsolute (List.intercalate ['/'] (front.concat (c :: r)).reverse) = false
      rw [List.concat_eq_append, List.reverse_append, List.reverse_singleton, List.singleton_append,
        intercalate_cons]
      simpa [isAbsolute] using hc

theorem getLast?_of_fileName? {path name : List Char} (h : fileName? path = some name) :
    ∃ front, inner path = front ++ [.name name] := by
  unfold fileName? at h
  split at h
  · next cs hlast =>
    obtain rfl := Option.some.inj h
    rcases List.eq_nil_or_concat (inner path) with hnil | ⟨front, p, hp⟩
    · rcases parts_eq path with hparts | ⟨hparts, -⟩
      · rw [hparts, hnil] at hlast
        cases habs : isAbsolute path <;> rw [habs] at hlast <;> cases hlast
      · rw [hparts, hnil] at hlast
        cases hlast
    · refine ⟨front, ?_⟩
      have hend : (parts path).getLast? = some p := by
        rcases parts_eq path with hparts | ⟨hparts, -⟩
        · rw [hparts, hp, List.concat_eq_append, ← List.append_assoc, List.getLast?_concat]
        · rw [hparts, hp, List.concat_eq_append, ← List.cons_append, List.getLast?_concat]
      rw [hend] at hlast
      rw [hp, Option.some.inj hlast, List.concat_eq_append]
  · cases h

/-- The path above has all parts but the last one, where that is a name. -/
theorem parent_of_fileName? {path name : List Char} (h : fileName? path = some name) :
    isAbsolute (parent path) = isAbsolute path ∧ inner path = inner (parent path) ++ [.name name] := by
  obtain ⟨front, hfront⟩ := getLast?_of_fileName? h
  have hback : (backwards path).filterMap innerPart? = .name name :: front.reverse := by
    have hbody := inner_body path
    rw [hfront] at hbody
    rw [backwards, List.filterMap_reverse]
    show (inner (body path)).reverse = _
    rw [hbody, List.reverse_append]
    rfl
  obtain ⟨before, hdrop, hbefore⟩ := dropSilent_of_filterMap (isAbsolute path) hback
  have hparent : parent path = ofBackwards (isAbsolute path) (dropSilent (isAbsolute path) before) := by
    unfold parent parent?
    simp only [hdrop, Option.getD_some]
  have hsuffix : dropSilent (isAbsolute path) before <:+ backwards path := by
    refine (dropSilent_suffix _ before).trans ?_
    refine .trans (List.suffix_cons _ before) (hdrop ▸ dropSilent_suffix _ _)
  have hslash : ∀ s ∈ dropSilent (isAbsolute path) before, '/' ∉ s := by
    intro s hs
    exact notMem_of_mem_splitAt (List.mem_reverse.1 (hsuffix.mem hs))
  constructor
  · rw [hparent]
    refine isAbsolute_ofBackwards hslash fun habs s hs => ?_
    have hpath : path ≠ [] := by
      rintro rfl
      simp [inner, splitAt, innerPart?] at hfront
    refine first_ne_nil habs hpath ?_
    obtain ⟨t, ht⟩ := hsuffix
    have hlast : (backwards path).getLast? = some s := by
      rw [← ht, List.getLast?_append, hs]
      rfl
    rw [backwards, List.getLast?_reverse, habs] at hlast
    exact hlast
  · rw [hparent, inner_ofBackwards hslash, filterMap_dropSilent, hbefore, List.reverse_reverse]
    exact hfront

end SingleFile.Path
