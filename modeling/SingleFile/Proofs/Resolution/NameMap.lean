import SingleFile.Proofs.Pattern.Replacement
import SingleFile.Resolution.NameMap

/-!
# The root in a replacement

A rule may mark the root of the project in its replacement.  The root is put in before the replacement
is read, so what it says is read with the rest: a dollar in the root may refer to a group, and a digit
at its start may go on with a number.  `Means` is the reading in which the root stands for itself, and
`Rewrites` says which rule decides.  A root is read as it is in every replacement exactly where it takes
part in no reference, whatever stands around it (`Inert`): `Inert.fills` is the one direction, and one
replacement with a dollar before the mark and a digit behind it tells all other roots apart
(`refers_around_iff`).
-/

namespace SingleFile.NameMap

open Pattern

/-- A replacement as a rule writes it, and what it is in a project with a root: each mark is the root
as it stands, and the parts between the marks are read on their own. -/
inductive Means (root : List Char) (found : Captures) : List Char → List Char → Prop
  | last {r out : List Char} : ¬ rootMark <:+: r → Fills found r out → Means root found r out
  | root {a r front out : List Char} : ¬ rootMark <:+: a → Fills found a front →
      Means root found r out → Means root found (a ++ (rootMark ++ r)) (front ++ (root ++ out))

/-- What a name becomes by some rules, each a pattern and a replacement: the first rule whose pattern
occurs in the name decides, and a name that no rule knows stays.  `reads` says what a replacement is. -/
inductive Rewrites (reads : Captures → List Char → List Char → Prop) (name : String) :
    List (String × String) → String → Prop
  | kept : Rewrites reads name [] name
  | passed {text replacement out : String} {rest : List (String × String)} {pattern : Pattern} :
      Pattern.parse? text = some pattern → pattern.captures? name = none →
      Rewrites reads name rest out → Rewrites reads name ((text, replacement) :: rest) out
  | replaced {text replacement : String} {rest : List (String × String)} {pattern : Pattern}
      {found : Captures} {out : List Char} :
      Pattern.parse? text = some pattern → pattern.captures? name = some found →
      reads found replacement.toList out →
      Rewrites reads name ((text, replacement) :: rest) (String.ofList out)

/-- Whether the patterns of some rules are patterns. -/
def Valid (rules : List (String × String)) : Prop := ∀ r ∈ rules, (Pattern.parse? r.1).isSome

/-- Whether a root takes part in no reference, whatever stands around it. -/
structure Inert (root : List Char) : Prop where
  ne_nil : root ≠ []
  head : ∀ c ∈ root.head?, c.isDigit = false
  last : root.getLast? ≠ some '$'
  inner : ¬ Refers root

/-! ### The mark -/

/-- The mark behind its first character. -/
def rootMarkTail : List Char := "rootDir>".toList

theorem rootMark_eq : rootMark = '<' :: rootMarkTail := rfl

theorem notMem_rootMarkTail : '<' ∉ rootMarkTail := by decide

theorem replaceAll_root {a : List Char} (ha : ¬ rootMark <:+: a) (root r : List Char) :
    replaceAll rootMark root (a ++ (rootMark ++ r)) = a ++ (root ++ replaceAll rootMark root r) := by
  rw [rootMark_eq] at ha ⊢
  exact replaceAll_append notMem_rootMarkTail ha root r

/-- The parts around the first mark of a replacement. -/
theorem exists_around_mark {r : List Char} (h : rootMark <:+: r) :
    ∃ a b, r = a ++ (rootMark ++ b) ∧ ¬ rootMark <:+: a := by
  obtain ⟨⟨a, b⟩, hsplit⟩ := Option.isSome_iff_exists.1 (isSome_splitFirst?_iff.2 h)
  have hr := splitFirst_eq hsplit
  refine ⟨a, b, by rw [hr, List.append_assoc], ?_⟩
  rintro ⟨u, v, rfl⟩
  have hle := length_le_of_splitFirst? hsplit (u := u) (v := v ++ (rootMark ++ b)) (by
    rw [hr]
    simp only [List.append_assoc])
  rw [rootMark_eq] at hle
  simp only [List.length_append, List.length_cons] at hle
  omega

theorem eq_of_around_mark {a b r s : List Char} (ha : ¬ rootMark <:+: a) (hb : ¬ rootMark <:+: b)
    (heq : a ++ (rootMark ++ r) = b ++ (rootMark ++ s)) : a = b ∧ r = s := by
  rw [rootMark_eq] at ha hb heq
  have hfirst := splitFirst?_append notMem_rootMarkTail ha r
  rw [heq, splitFirst?_append notMem_rootMarkTail hb s] at hfirst
  simpa [eq_comm] using hfirst

theorem mark_infix_append (a r : List Char) : rootMark <:+: a ++ (rootMark ++ r) :=
  ⟨a, r, by rw [List.append_assoc]⟩

/-! ### What a replacement means -/

variable {root : List Char} {found : Captures}

theorem exists_means (root : List Char) (found : Captures) (r : List Char) :
    ∃ out, Means root found r out := by
  induction hn : r.length using Nat.strongRecOn generalizing r with
  | ind n ih =>
    subst hn
    by_cases hmark : rootMark <:+: r
    · obtain ⟨a, b, rfl, ha⟩ := exists_around_mark hmark
      obtain ⟨front, hfront⟩ := exists_fills found a
      have hlt : b.length < (a ++ (rootMark ++ b)).length := by
        rw [rootMark_eq]
        simp only [List.length_append, List.length_cons]
        omega
      obtain ⟨out, hout⟩ := ih b.length hlt b rfl
      exact ⟨_, .root ha hfront hout⟩
    · obtain ⟨out, hout⟩ := exists_fills found r
      exact ⟨out, .last hmark hout⟩

theorem Means.unique {r out out' : List Char} (h : Means root found r out)
    (h' : Means root found r out') : out = out' := by
  induction h generalizing out' with
  | @last r out hnot hfills =>
    generalize hr : r = r' at h'
    cases h' with
    | last _ hfills' =>
      subst hr
      exact hfills.unique hfills'
    | root ha _ _ =>
      rw [hr] at hnot
      exact absurd (mark_infix_append _ _) hnot
  | @root a r front out ha hfront _ ih =>
    generalize hr : a ++ (rootMark ++ r) = r' at h'
    cases h' with
    | last hnot _ =>
      rw [← hr] at hnot
      exact absurd (mark_infix_append _ _) hnot
    | root hb hfront' hrest =>
      obtain ⟨rfl, rfl⟩ := eq_of_around_mark ha hb hr
      rw [hfront.unique hfront', ih hrest]

/-! ### Roots that stand for themselves -/

/-- A dollar before the root and a digit behind it make a reference with every other root. -/
theorem refers_around_iff : Refers ('$' :: (root ++ ['1'])) ↔ ¬ Inert root := by
  constructor
  · rintro h ⟨hne, hhead, hlast, hinner⟩
    rcases refers_cons_iff.1 h with ⟨-, d, hmem, hd⟩ | h
    · obtain ⟨c, a, rfl⟩ := List.exists_cons_of_ne_nil hne
      have hc : c.isDigit = false := hhead c rfl
      obtain rfl : c = d := by simpa using hmem
      rw [hd] at hc
      exact absurd hc (by decide)
    · refine not_refers_append hlast hinner ?_ h
      rintro ⟨d, -, hi⟩
      have := hi.length_le
      simp at this
  · intro h
    by_contra hnot
    refine h ⟨?_, ?_, ?_, ?_⟩
    · rintro rfl
      exact hnot (refers_cons_cons rfl [])
    · intro c hc
      by_contra hd
      obtain ⟨a, rfl⟩ := List.head?_eq_some_iff.1 hc
      exact hnot (refers_cons_cons (by simpa using hd) _)
    · intro hlast
      obtain ⟨a, rfl⟩ := List.getLast?_eq_some_iff.1 hlast
      refine hnot (Refers.cons ?_ '$')
      rw [List.append_assoc]
      exact (refers_cons_cons rfl []).append_left a
    · intro hr
      exact hnot ((hr.append_right ['1']).cons '$')

/-- With such a root, a replacement with the root put in is read as it is meant. -/
theorem Inert.fills {r out : List Char} (hroot : Inert root) (h : Means root found r out) :
    Fills found (replaceAll rootMark root r) out := by
  induction h with
  | last hnot hfills => rwa [replaceAll_eq_self hnot]
  | root ha hfront _ ih =>
    rw [replaceAll_root ha]
    refine hfront.append (ih.append_plain hroot.last hroot.inner) ?_
    obtain ⟨c, a, heq⟩ := List.exists_cons_of_ne_nil hroot.ne_nil
    have hhead := hroot.head
    rw [heq] at hhead ⊢
    exact hhead

/-- With such a root, what a replacement is read as is what is meant. -/
theorem Inert.means {r out : List Char} (hroot : Inert root)
    (h : Fills found (replaceAll rootMark root r) out) : Means root found r out := by
  obtain ⟨out', hout⟩ := exists_means root found r
  rwa [h.unique (hroot.fills hout)]

/-! ### Rules -/

theorem Rewrites.mono {reads reads' : Captures → List Char → List Char → Prop} {name out : String}
    {rules : List (String × String)} (h : Rewrites reads name rules out)
    (hreads : ∀ found r out, reads found r out → reads' found r out) :
    Rewrites reads' name rules out := by
  induction h with
  | kept => exact .kept
  | passed hp hnone _ ih => exact .passed hp hnone ih
  | replaced hp hfound hr => exact .replaced hp hfound (hreads _ _ _ hr)

/-- What a rule is made of. -/
theorem ofPairs_cons {root : Option String} {text replacement : String} {pattern : Pattern}
    {rest : List (String × String)} {map : NameMap} (hp : Pattern.parse? text = some pattern)
    (h : ofPairs root rest = .ok map) :
    ofPairs root ((text, replacement) :: rest) =
      .ok ⟨⟨pattern, templateOf (withRoot root replacement.toList)⟩ :: map.rules⟩ := by
  rw [ofPairs, hp, h]
  rfl

/-- Rules whose patterns are patterns make a map, and the map says what they say, each replacement
read with the root put in. -/
theorem exists_ofPairs_rewrites (root : Option String) {rules : List (String × String)}
    (hvalid : Valid rules) :
    ∃ map, ofPairs root rules = .ok map ∧ ∀ name,
      Rewrites (fun found r => Fills found (withRoot root r)) name rules (map.rewrite name) := by
  induction rules with
  | nil => exact ⟨⟨[]⟩, rfl, fun name => .kept⟩
  | cons rule rest ih =>
    obtain ⟨text, replacement⟩ := rule
    obtain ⟨pattern, hp⟩ := Option.isSome_iff_exists.1 (hvalid _ List.mem_cons_self)
    obtain ⟨map, hmap, hreads⟩ := ih fun r hr => hvalid r (List.mem_cons_of_mem _ hr)
    refine ⟨_, ofPairs_cons hp hmap, fun name => ?_⟩
    cases hfound : pattern.captures? name with
    | none =>
      have hrest : NameMap.rewrite
          ⟨⟨pattern, templateOf (withRoot root replacement.toList)⟩ :: map.rules⟩ name =
            map.rewrite name := by
        unfold rewrite
        rw [List.findSome?_cons, applyRule?, hfound]
        rfl
      rw [hrest]
      exact .passed hp hfound (hreads name)
    | some found =>
      have hthis : NameMap.rewrite
          ⟨⟨pattern, templateOf (withRoot root replacement.toList)⟩ :: map.rules⟩ name =
            String.ofList (found.expand (templateOf (withRoot root replacement.toList))) := by
        unfold rewrite
        rw [List.findSome?_cons, applyRule?, hfound]
        rfl
      obtain ⟨out, hout⟩ := exists_fills found (withRoot root replacement.toList)
      rw [hthis, hout.expand]
      exact .replaced hp hfound hout

theorem ofPairs_inj {root : Option String} {rules : List (String × String)} {map map' : NameMap}
    (h : ofPairs root rules = .ok map) (h' : ofPairs root rules = .ok map') : map = map' := by
  rw [h] at h'
  exact Except.ok.inj h'

/-! ### Which roots are kept -/

/-- Whether a root stands for itself in the replacements of all rules. -/
def KeepsRoot (root : String) : Prop :=
  ∀ rules, Valid rules → ∃ map, ofPairs (some root) rules = .ok map ∧
    ∀ name, Rewrites (Means root.toList) name rules (map.rewrite name)

/-- A rule for every name, with the mark between a dollar and a digit. -/
def tellingRule : String × String := ("", "$<rootDir>1")

/-- What the pattern of the rule finds in the empty name. -/
def nothingFound : Captures := ⟨[(0, [])], []⟩

theorem parse_tellingRule : Pattern.parse? "" = some ⟨"", .nothing, []⟩ := by rfl

theorem group_nothingFound (n : Nat) : nothingFound.group n = [] := by
  unfold Captures.group nothingFound
  rw [List.lookup_cons]
  split <;> rfl

theorem valid_tellingRule : Valid [tellingRule] := by
  intro r hr
  obtain rfl := List.mem_singleton.1 hr
  rw [tellingRule, parse_tellingRule]
  rfl

theorem Rewrites.of_tellingRule {reads : Captures → List Char → List Char → Prop} {out : String}
    (h : Rewrites reads "" [tellingRule] out) :
    reads nothingFound tellingRule.2.toList out.toList := by
  cases h with
  | passed hp hnone _ =>
    rw [parse_tellingRule] at hp
    cases hp
    exact absurd hnone (by decide)
  | replaced hp hfound hreads =>
    rw [parse_tellingRule] at hp
    cases hp
    cases hfound
    rwa [String.toList_ofList]

theorem means_tellingRule (root : List Char) (found : Captures) :
    Means root found tellingRule.2.toList ('$' :: (root ++ ['1'])) := by
  have hfront : Fills found ['$'] ['$'] := .dollar (by simp) .done
  have hback : Means root found ['1'] ['1'] := .last (by decide) (.plain (by decide) .done)
  exact .root (by decide) hfront hback

/-- Rules whose patterns are patterns make a map.  Each name is replaced by the first rule whose pattern
occurs in it, the replacement read with the root put in, and stays if there is none.  The root stands
for itself in all replacements just when it takes part in no reference. -/
theorem exists_ofPairs_keepsRoot_iff (root : String) :
    (∀ rules, Valid rules → ∃ map, ofPairs (some root) rules = .ok map ∧ ∀ name,
      Rewrites (fun found r => Fills found (replaceAll rootMark root.toList r)) name rules
        (map.rewrite name)) ∧
    (KeepsRoot root ↔ Inert root.toList) := by
  refine ⟨fun rules hvalid => exists_ofPairs_rewrites (some root) hvalid, ?_, ?_⟩
  · intro hkeeps
    by_contra hnot
    have hrefers := refers_around_iff.2 hnot
    obtain ⟨map, hmap, hmeans⟩ := hkeeps _ valid_tellingRule
    obtain ⟨map', hmap', hreads⟩ := exists_ofPairs_rewrites (some root) valid_tellingRule
    obtain rfl := ofPairs_inj hmap hmap'
    -- what is meant is the replacement as it stands, and what is read lacks the reference
    have hmeant := (hmeans "").of_tellingRule.unique (means_tellingRule root.toList nothingFound)
    have hread := (hreads "").of_tellingRule
    rw [hmeant] at hread
    have hput : withRoot (some root) tellingRule.2.toList = '$' :: (root.toList ++ ['1']) :=
      replaceAll_root (a := ['$']) (by decide) root.toList ['1']
    rw [hput] at hread
    exact absurd ((hread.length_lt group_nothingFound).2 hrefers) (Nat.lt_irrefl _)
  · intro hroot rules hvalid
    obtain ⟨map, hmap, hreads⟩ := exists_ofPairs_rewrites (some root) hvalid
    exact ⟨map, hmap, fun name => (hreads name).mono fun found r out => hroot.means⟩

/-! ### A rule for the sources of a project -/

/-- A mark stands for the directory of the sources, which the rule tells from the root. -/
def sourceRule : String × String := ("^@/(.*)$", "<rootDir>/src/$1")

/-- What a name behind the mark becomes is told from what the rule finds in it. -/
theorem found_sourceRule : ((Pattern.parse? sourceRule.1).any fun pattern =>
    (pattern.captures? "@/x").any fun found => found.group 1 = ['x']) = true := by decide +kernel

theorem valid_sourceRule : Valid [sourceRule] := by
  intro r hr
  obtain rfl := List.mem_singleton.1 hr
  cases hp : Pattern.parse? sourceRule.1 with
  | some pattern => rfl
  | none =>
    have := found_sourceRule
    rw [hp] at this
    exact absurd this (by decide)

theorem Rewrites.of_sourceRule {reads : Captures → List Char → List Char → Prop} {out : String}
    (h : Rewrites reads "@/x" [sourceRule] out) :
    ∃ found : Captures, found.group 1 = ['x'] ∧ reads found sourceRule.2.toList out.toList := by
  have hfinds := found_sourceRule
  rw [sourceRule] at hfinds
  cases h with
  | passed hp hnone _ =>
    rw [hp, Option.any_some, hnone] at hfinds
    exact absurd hfinds (by decide)
  | @replaced _ _ _ pattern found out hp hfound hreads =>
    rw [hp, Option.any_some, hfound, Option.any_some, decide_eq_true_eq] at hfinds
    exact ⟨found, hfinds, by rwa [String.toList_ofList]⟩

theorem means_sourceRule (root : List Char) {found : Captures} (h : found.group 1 = ['x']) :
    Means root found sourceRule.2.toList (root ++ "/src/x".toList) := by
  have hgroup : Fills found ('$' :: (['1'] ++ [])) (found.group 1 ++ []) :=
    .group (by decide) (List.forall_mem_singleton.2 rfl) (by simp) .done
  rw [h] at hgroup
  have hback : Fills found "/src/$1".toList "/src/x".toList :=
    .plain (by decide) (.plain (by decide) (.plain (by decide) (.plain (by decide)
      (.plain (by decide) hgroup))))
  exact .root (a := []) (by decide) .done (.last (by decide) hback)

/-- An ordinary root stands for itself. -/
theorem exists_ofPairs_keepsRoot_iff_plainRoot :
    Valid [sourceRule] ∧ Inert "/app".toList ∧ ∃ map, ofPairs (some "/app") [sourceRule] = .ok map ∧
      map.rewrite "@/x" = "/app/src/x" := by
  have hroot : Inert "/app".toList := ⟨by decide, by rintro c ⟨⟩; rfl, by decide, by
    rintro ⟨d, -, hi⟩
    exact absurd (hi.subset List.mem_cons_self) (by decide)⟩
  obtain ⟨map, hmap, hmeans⟩ :=
    (exists_ofPairs_keepsRoot_iff "/app").2.2 hroot _ valid_sourceRule
  obtain ⟨found, hfound, hout⟩ := (hmeans "@/x").of_sourceRule
  refine ⟨valid_sourceRule, hroot, map, hmap, ?_⟩
  have heq := hout.unique (means_sourceRule "/app".toList hfound)
  exact String.toList_inj.1 heq

/-- A root with a dollar before a digit is read like the replacement: it does not stand for itself. -/
theorem not_keepsRoot_numberedRoot :
    ∃ map, ofPairs (some "/app/$1") [sourceRule] = .ok map ∧ map.rewrite "@/x" = "/app/x/src/x" ∧
      ¬ Rewrites (Means "/app/$1".toList) "@/x" [sourceRule] (map.rewrite "@/x") := by
  have hrewrites : ((ofPairs (some "/app/$1") [sourceRule]).toOption.any fun map =>
      map.rewrite "@/x" = "/app/x/src/x") = true := by decide +kernel
  obtain ⟨map, hmap, -⟩ := exists_ofPairs_rewrites (some "/app/$1") valid_sourceRule
  rw [hmap] at hrewrites
  have hname := of_decide_eq_true hrewrites
  refine ⟨map, hmap, hname, fun h => ?_⟩
  obtain ⟨found, hfound, hout⟩ := h.of_sourceRule
  have heq := hout.unique (means_sourceRule "/app/$1".toList hfound)
  rw [hname] at heq
  exact absurd heq (by decide)

end SingleFile.NameMap
