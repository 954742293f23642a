import SingleFile.Proofs.Assembly.Front
import SingleFile.Proofs.Text.Search

/-!
# Where the alias comes from

The name in the alias is read off the text of the module so far.  On the first line that has
`export {` and further on `as default }` it is all that stands between the first of the one and the
last of the other (`FirstMention`, `defaultName?_eq_some_iff`), whatever the line is: nothing is
parsed.  Such a text stands on one line, so the lines of the code are searched one after the other
(`defaultName?_append_cons`).  `Assembly.aliases` says so of a module, with the error that is logged
where there is no such line.
-/

namespace SingleFile.Assembly

/-- What stands before and behind the name of a default export. -/
def exportOpening : List Char := "export \x7b ".toList

def exportClosing : List Char := " as default \x7d".toList

theorem exportOpening_ne_nil : exportOpening ≠ [] := by decide

theorem exportClosing_eq : exportClosing =
    [' ', 'a', 's', ' ', 'd', 'e', 'f', 'a', 'u', 'l', 't', ' ', '\x7d'] := by decide

theorem exportClosing_ne_nil : exportClosing ≠ [] := by decide

/-- Behind `before`, some code has a name on one line between an opening and a closing. -/
structure Mention (code before name after : List Char) : Prop where
  split : code = before ++ (exportOpening ++ (name ++ (exportClosing ++ after)))
  oneLine : '\n' ∉ name

/-- A name stands between the first opening in some code that is closed on its line, and the last
closing there. -/
def FirstMention (code name : List Char) : Prop :=
  ∃ before after, Mention code before name after ∧
    (∀ b n a, Mention code b n a → before.length ≤ b.length) ∧
    ∀ n a, Mention code before n a → n.length ≤ name.length

section Mentions

variable {code name before after : List Char}

theorem mention_cons_iff {c : Char} : Mention (c :: code) (c :: before) name after ↔
    Mention code before name after := by
  constructor
  · rintro ⟨hsplit, hline⟩
    exact ⟨(List.cons.inj hsplit).2, hline⟩
  · rintro ⟨hsplit, hline⟩
    exact ⟨congrArg (c :: ·) hsplit, hline⟩

/-- There is one name that is mentioned first. -/
theorem FirstMention.unique {name' : List Char} (h : FirstMention code name)
    (h' : FirstMention code name') : name = name' := by
  obtain ⟨b, a, hb, hfirst, hlast⟩ := h
  obtain ⟨b', a', hb', hfirst', hlast'⟩ := h'
  have hlength : b.length = b'.length := Nat.le_antisymm (hfirst _ _ _ hb') (hfirst' _ _ _ hb)
  obtain ⟨rfl, hrest⟩ := List.append_inj (hb.split.symm.trans hb'.split) hlength
  rw [List.append_cancel_left_eq] at hrest
  have hsame : name.length = name'.length :=
    Nat.le_antisymm (hlast' _ _ hb) (hlast _ _ hb')
  exact (List.append_inj hrest hsame).1

/-- A name with its closing stands in front of a text just if it does on the first line. -/
theorem eq_append_closing_iff {rest : List Char} :
    ((∃ a, rest = name ++ (exportClosing ++ a)) ∧ '\n' ∉ name) ↔
      ∃ t, rest.takeWhile (· ≠ '\n') = name ++ exportClosing ++ t := by
  constructor
  · rintro ⟨⟨a, rfl⟩, hline⟩
    refine ⟨a.takeWhile (· ≠ '\n'), ?_⟩
    have hplain : ∀ c ∈ name ++ exportClosing, decide (c ≠ '\n') = true := by
      intro c hc
      rw [decide_eq_true_iff]
      rintro rfl
      rcases List.mem_append.1 hc with hc | hc
      · exact hline hc
      · revert hc
        decide
    rw [← List.append_assoc, List.takeWhile_append_of_pos hplain]
  · rintro ⟨t, ht⟩
    refine ⟨⟨t ++ rest.dropWhile (· ≠ '\n'), ?_⟩, fun hc => ?_⟩
    · calc rest = rest.takeWhile (· ≠ '\n') ++ rest.dropWhile (· ≠ '\n') :=
            List.takeWhile_append_dropWhile.symm
        _ = _ := by rw [ht]; simp
    · have hmem : '\n' ∈ rest.takeWhile (· ≠ '\n') := by
        rw [ht]
        simp [hc]
      simpa using List.mem_takeWhile_imp hmem

end Mentions

/-- A closing does not overlap with another one. -/
theorem closing_infix_of_tail {y : List Char} (h : exportClosing <:+: exportClosing.tail ++ y) :
    exportClosing <:+: y := by
  rw [exportClosing_eq] at h ⊢
  simpa [List.infix_cons_iff] using h

/-- What is mentioned first is the name there, if nothing else is closed on its line. -/
theorem Mention.first (h : Mention code before name after)
    (hfirst : ∀ b n a, Mention code b n a → before.length ≤ b.length)
    (hclosed : ¬ exportClosing <:+: after.takeWhile (· ≠ '\n')) : FirstMention code name := by
  refine ⟨before, after, h, hfirst, fun n a hn => ?_⟩
  by_contra hlonger
  have hrest : name ++ (exportClosing ++ after) = n ++ (exportClosing ++ a) := by
    have hboth := h.split.symm.trans hn.split
    rwa [List.append_cancel_left_eq, List.append_cancel_left_eq] at hboth
  rcases List.append_eq_append_iff.1 hrest with ⟨m, rfl, hm⟩ | ⟨m, rfl, -⟩
  · cases m with
    | nil => simp at hlonger
    | cons c m =>
      have hbehind : exportClosing.tail ++ after = m ++ (exportClosing ++ a) := by
        have htails := congrArg List.tail hm
        rwa [List.tail_append_of_ne_nil exportClosing_ne_nil, List.cons_append,
          List.tail_cons] at htails
      have hm : '\n' ∉ m := fun hc => hn.oneLine (List.mem_append_right _ (List.mem_cons_of_mem c hc))
      have htail : ∀ c ∈ exportClosing.tail, decide (c ≠ '\n') = true := by
        simp [exportClosing_eq]
      obtain ⟨t, ht⟩ := eq_append_closing_iff.1 ⟨⟨a, hbehind⟩, hm⟩
      rw [List.takeWhile_append_of_pos htail] at ht
      exact hclosed (closing_infix_of_tail ⟨m, t, ht.symm⟩)
  · simp at hlonger

/-! ### Searching -/

section Search

variable {code name : List Char}

/-- The name for which an opening stands in front of a text. -/
def nameHere? (cs : List Char) : Option (List Char) := do
  let rest ← stripPrefix? exportOpening cs
  let (name, _) ← splitLast? exportClosing (rest.takeWhile (· ≠ '\n'))
  return name

theorem defaultName?_cons (c : Char) (r : List Char) :
    defaultName? (c :: r) = (nameHere? (c :: r)).orElse fun _ => defaultName? r := rfl

theorem mention_nil_iff {cs n a : List Char} : Mention cs [] n a ↔
    ∃ rest, stripPrefix? exportOpening cs = some rest ∧ rest = n ++ (exportClosing ++ a) ∧
      '\n' ∉ n := by
  constructor
  · rintro ⟨rfl, hline⟩
    exact ⟨_, stripPrefix?_append _ _, rfl, hline⟩
  · rintro ⟨rest, hrest, rfl, hline⟩
    have hsplit := stripPrefix?_eq_some_iff.1 hrest
    exact ⟨hsplit, hline⟩

/-- What is found in front of a text is the longest name there. -/
theorem nameHere?_eq_some (h : nameHere? code = some name) :
    (∃ a, Mention code [] name a) ∧ ∀ n a, Mention code [] n a → n.length ≤ name.length := by
  obtain ⟨rest, hrest, h⟩ := Option.bind_eq_some_iff.1 h
  obtain ⟨⟨found, t⟩, hfound, h⟩ := Option.bind_eq_some_iff.1 h
  obtain rfl := Option.some.inj h
  constructor
  · obtain ⟨⟨a, ha⟩, hline⟩ := eq_append_closing_iff.2 ⟨t, splitLast_eq hfound⟩
    exact ⟨a, mention_nil_iff.2 ⟨rest, hrest, ha, hline⟩⟩
  · intro n a hmention
    obtain ⟨rest', hrest', hn, hline⟩ := mention_nil_iff.1 hmention
    obtain rfl := Option.some.inj (hrest.symm.trans hrest')
    obtain ⟨t', ht'⟩ := eq_append_closing_iff.1 ⟨⟨a, hn⟩, hline⟩
    exact length_le_of_splitLast? hfound ht'

theorem nameHere?_eq_none (h : nameHere? code = none) (n a : List Char) :
    ¬ Mention code [] n a := by
  intro hmention
  obtain ⟨rest, hrest, hn, hline⟩ := mention_nil_iff.1 hmention
  obtain ⟨t, ht⟩ := eq_append_closing_iff.1 ⟨⟨a, hn⟩, hline⟩
  unfold nameHere? at h
  rw [hrest] at h
  cases hlast : splitLast? exportClosing (rest.takeWhile (· ≠ '\n')) with
  | none => exact splitLast?_eq_none_iff.1 hlast ⟨n, t, ht.symm⟩
  | some cut =>
    simp only [Option.bind_eq_bind, Option.bind_some] at h
    rw [hlast] at h
    cases h

theorem not_mention_of_defaultName? (h : defaultName? code = none) (b n a : List Char) :
    ¬ Mention code b n a := by
  induction code generalizing b with
  | nil =>
    rintro ⟨hsplit, -⟩
    obtain ⟨-, hrest⟩ := List.append_eq_nil_iff.1 hsplit.symm
    exact exportOpening_ne_nil (List.append_eq_nil_iff.1 hrest).1
  | cons c r ih =>
    rw [defaultName?_cons] at h
    cases hhere : nameHere? (c :: r) with
    | some name =>
      rw [hhere] at h
      cases h
    | none =>
      rw [hhere] at h
      intro hmention
      cases b with
      | nil => exact nameHere?_eq_none hhere n a hmention
      | cons d b =>
        obtain rfl : c = d := (List.cons.inj hmention.split).1
        exact ih h b (mention_cons_iff.1 hmention)

theorem firstMention_of_defaultName? (h : defaultName? code = some name) :
    FirstMention code name := by
  induction code with
  | nil => cases h
  | cons c r ih =>
    rw [defaultName?_cons] at h
    cases hhere : nameHere? (c :: r) with
    | some found =>
      rw [hhere] at h
      obtain rfl := Option.some.inj h
      obtain ⟨⟨a, ha⟩, hlast⟩ := nameHere?_eq_some hhere
      exact ⟨[], a, ha, fun b _ _ _ => Nat.zero_le _, hlast⟩
    | none =>
      rw [hhere] at h
      obtain ⟨before, after, hmention, hfirst, hlast⟩ := ih h
      refine ⟨c :: before, after, mention_cons_iff.2 hmention, fun b n a hb => ?_, fun n a hn => ?_⟩
      · cases b with
        | nil => exact absurd hb (nameHere?_eq_none hhere n a)
        | cons d b =>
          obtain rfl : c = d := (List.cons.inj hb.split).1
          exact Nat.succ_le_succ (hfirst b n a (mention_cons_iff.1 hb))
      · exact hlast n a (mention_cons_iff.1 hn)

theorem defaultName?_eq_none_iff : defaultName? code = none ↔ ∀ b n a, ¬ Mention code b n a := by
  refine ⟨not_mention_of_defaultName?, fun h => ?_⟩
  cases hname : defaultName? code with
  | none => rfl
  | some name =>
    obtain ⟨b, a, hmention, -⟩ := firstMention_of_defaultName? hname
    exact absurd hmention (h b name a)

theorem defaultName?_eq_some_iff : defaultName? code = some name ↔ FirstMention code name := by
  refine ⟨firstMention_of_defaultName?, fun h => ?_⟩
  cases hname : defaultName? code with
  | none =>
    obtain ⟨b, a, hmention, -⟩ := h
    exact absurd hmention (not_mention_of_defaultName? hname b name a)
  | some name' => rw [(firstMention_of_defaultName? hname).unique h]

/-- What follows a line does not change what is found on it. -/
theorem nameHere?_append_cons (x y : List Char) : nameHere? (x ++ '\n' :: y) = nameHere? x := by
  unfold nameHere?
  rw [stripPrefix?_append_cons (by decide)]
  cases stripPrefix? exportOpening x with
  | none => rfl
  | some rest =>
    have hline : (rest ++ '\n' :: y).takeWhile (· ≠ '\n') = rest.takeWhile (· ≠ '\n') := by
      rw [List.takeWhile_append]
      split
      · next hall =>
        rw [List.takeWhile_cons_of_neg (by simp), List.append_nil]
        exact ((List.takeWhile_prefix _).eq_of_length hall).symm
      · rfl
    simp only [Option.map_some, Option.bind_eq_bind, Option.bind_some]
    rw [hline]

/-- Lines are searched one after the other. -/
theorem defaultName?_append_cons (x y : List Char) : defaultName? (x ++ '\n' :: y) =
    (defaultName? x).orElse fun _ => defaultName? y := by
  induction x with
  | nil =>
    have hnone : nameHere? ([] ++ '\n' :: y) = nameHere? [] := nameHere?_append_cons [] y
    rw [List.nil_append] at hnone ⊢
    rw [defaultName?_cons, hnone]
    rfl
  | cons c x ih =>
    have hhere : nameHere? (c :: x ++ '\n' :: y) = nameHere? (c :: x) := nameHere?_append_cons _ y
    rw [List.cons_append] at hhere ⊢
    rw [defaultName?_cons, defaultName?_cons, hhere, ih]
    cases nameHere? (c :: x) <;> rfl

/-- A line that is just an export of a name as default. -/
theorem defaultName?_export (hname : '\n' ∉ name) (y : List Char) :
    defaultName? (exportOpening ++ (name ++ exportClosing) ++ '\n' :: y) = some name := by
  rw [defaultName?_append_cons]
  have hfirst : FirstMention (exportOpening ++ (name ++ exportClosing)) name := by
    refine ⟨[], [], ⟨by simp, hname⟩, fun _ _ _ _ => Nat.zero_le _, fun n a hn => ?_⟩
    have hlength := congrArg List.length hn.split
    simp only [List.length_append, List.length_nil] at hlength
    omega
  rw [defaultName?_eq_some_iff.2 hfirst]
  rfl

end Search

/-! ### The alias of a module -/

/-- The line that binds the options of the component that a name stands for. -/
def aliasOf (name : String) : String := "const " ++ optionsName ++ " = " ++ name ++ ".options\n"

/-- The line that binds empty options, and what is logged with it. -/
def emptyAlias : String := "const " ++ optionsName ++ " = \x7b\x7d\n"

def unnamedError : Event := ⟨.error, "Could not parse component name from template!", []⟩

theorem aliasOf_injective : Function.Injective aliasOf := by
  intro x y h
  exact (String.append_right_inj _).1 ((String.append_left_inj _).1 h)

theorem aliasOf_ne_emptyAlias (name : String) : aliasOf name ≠ emptyAlias := by
  intro h
  have hsuffix : ".options\n".toList <:+ emptyAlias.toList := by
    rw [← h]
    exact ⟨("const " ++ optionsName ++ " = " ++ name).toList, String.toList_append.symm⟩
  revert hsuffix
  decide +kernel

/-- The alias of a module below some code names what the code mentions first, and is empty with an
error where it mentions nothing. -/
inductive Aliases (a : Assembly) (code : List Char) : Prop
  | named {name : String} (first : FirstMention code name.toList) (line : a.aliasLine = aliasOf name)
      (events : a.assemble.2 = [])
  | empty (none : ∀ before name after, ¬ Mention code before name after)
      (line : a.aliasLine = emptyAlias) (events : a.assemble.2 = [unnamedError])

/-- **The alias of a module** comes from the text of its script: it names what is mentioned first, and
where nothing is, it is empty and an error is logged. -/
theorem aliases {a : Assembly} {f : Fragment} (hesm : a.esm = true) (hscript : a.script = some f) :
    a.Aliases f.code.toList := by
  have hevents : a.assemble.2 = (optionsAlias a.esm a.body.code).2 := rfl
  have hline : a.aliasLine = (optionsAlias a.esm a.body.code).1 := rfl
  rw [hesm, code_body hscript] at hevents hline
  unfold optionsAlias at hevents hline
  cases hname : defaultName? f.code.toList with
  | none =>
    rw [hname] at hevents hline
    exact .empty (defaultName?_eq_none_iff.1 hname) hline hevents
  | some name =>
    rw [hname] at hevents hline
    have hfirst : FirstMention f.code.toList (String.ofList name).toList := by
      rw [String.toList_ofList]
      exact defaultName?_eq_some_iff.1 hname
    exact .named hfirst hline hevents

section Aliases

variable {a : Assembly} {code : List Char} (h : a.Aliases code)

include h

theorem Aliases.line_iff {name : String} :
    a.aliasLine = aliasOf name ↔ FirstMention code name.toList := by
  cases h with
  | @named found first line events =>
    rw [line, aliasOf_injective.eq_iff]
    constructor
    · rintro rfl
      exact first
    · intro hname
      exact String.toList_injective (first.unique hname)
  | empty none line events =>
    rw [line]
    constructor
    · intro hline
      exact absurd hline.symm (aliasOf_ne_emptyAlias name)
    · rintro ⟨before, after, hmention, -⟩
      exact absurd hmention (none before name.toList after)

theorem Aliases.empty_iff : a.aliasLine = emptyAlias ↔
    ∀ before name after, ¬ Mention code before name after := by
  cases h with
  | @named found first line events =>
    obtain ⟨before, after, hmention, -⟩ := first
    rw [line]
    constructor
    · intro hline
      exact absurd hline (aliasOf_ne_emptyAlias found)
    · intro hnone
      exact absurd hmention (hnone before found.toList after)
  | empty none line events => exact ⟨fun _ => none, fun _ => line⟩

theorem Aliases.events_of_ne (hline : a.aliasLine ≠ emptyAlias) : a.assemble.2 = [] := by
  cases h with
  | named first line events => exact events
  | empty none line events => exact absurd line hline

end Aliases

/-- The alias is a line of the module, below the script. -/
theorem exists_alias_prefix {a : Assembly} {f : Fragment} (hscript : a.script = some f) : ∃ spot,
    annotate spot ((startLine a.body).code ++ a.aliasLine.toList) <+: a.assemble.1.code.toList := by
  obtain ⟨spot, ⟨tail, -, hcode⟩, -⟩ := exists_spot hscript
  refine ⟨spot, ?_⟩
  rw [code_assemble, hcode, annotate_prefix_iff]
  exact List.prefix_append _ tail

end SingleFile.Assembly
