import SingleFile.Component.Record
import SingleFile.Proofs.Component.Integrity
import SingleFile.Proofs.Json.Lookup

/-!
# Who reads the attributes of a block

The attributes of a block are read in three ways.  While the file is read, the first attribute that has a
name in any ASCII case counts (`Component.readInAnyCase_parse`); of a block that has been read, the first
one that is spelled like the name; and of its JSON form, the last one that is (`Component.attributeField?_of_mem`).
So a block may be functional without having the attribute, and have one language for this program and
another for a compiler.  `Component.readersAgree_iff` says in which files all readers find the same.
-/

namespace SingleFile

open Cursor

/-! ### Attributes by name -/

namespace Attribute

/-- The first attribute with a name, in any ASCII case. -/
def first? (name : String) (attributes : List Attribute) : Option Attribute :=
  attributes.find? fun a => equalFold a.name.toList name.toList

/-- What an attribute with a value, or without one, is in an object. -/
def entry (value : Option String) : Json :=
  match value with
  | some v => if v.isEmpty then .bool true else .string v
  | none => .bool true

/-- If a name is given in any case, it is also given as it is spelled. -/
def GivenAsSpelled (name : String) (attributes : List Attribute) : Prop :=
  (∃ a ∈ attributes, equalFold a.name.toList name.toList = true) → ∃ a ∈ attributes, a.name = name

/-- The first attribute with a name in any case has the value of the first one that is spelled so. -/
def FirstAsSpelled (name : String) (attributes : List Attribute) : Prop :=
  ∀ a ∈ first? name attributes, a.name = name ∨
    a.value = (attributes.find? (·.name == name)).bind (·.value)

/-- The last attribute that is spelled like a name is the same in an object as the first one with the
name in any case. -/
def LastAsSpelled (name : String) (attributes : List Attribute) : Prop :=
  ∀ a ∈ first? name attributes, ∃ before last behind, attributes = before ++ last :: behind ∧
    last.name = name ∧ (∀ b ∈ behind, b.name ≠ name) ∧ entry last.value = entry a.value

/-- A name is given at most once, and as it is spelled. -/
def GivenOnce (name : String) (attributes : List Attribute) : Prop :=
  ∀ a ∈ first? name attributes, a.name = name ∧
    (attributes.filter fun a => equalFold a.name.toList name.toList).length = 1

variable {name : String} {attributes : List Attribute}

theorem equalFold_self (cs : List Char) : equalFold cs cs = true := by
  unfold equalFold
  rw [beq_self_eq_true]

theorem value?_eq (name : String) (attributes : List Attribute) :
    value? name attributes = (first? name attributes).bind (·.value) := rfl

theorem has_iff : has name attributes = true ↔
    ∃ a ∈ attributes, equalFold a.name.toList name.toList = true := by
  unfold has
  rw [List.any_eq_true]

/-- Whether a name is given does not depend on the reader just when it is given as spelled. -/
theorem has_eq_iff : has name attributes = (attributes.any (·.name == name)) ↔
    GivenAsSpelled name attributes := by
  have hexact : (attributes.any (·.name == name)) = true ↔ ∃ a ∈ attributes, a.name = name := by
    simp [List.any_eq_true]
  rw [Bool.eq_iff_iff, has_iff, hexact]
  constructor
  · exact fun h => h.1
  · refine fun h => ⟨h, ?_⟩
    rintro ⟨a, ha, rfl⟩
    exact ⟨a, ha, equalFold_self _⟩

/-- If no attribute has a name in any case, none is spelled so. -/
theorem find?_eq_none_of_first? (h : first? name attributes = none) :
    attributes.find? (·.name == name) = none := by
  rw [first?, List.find?_eq_none] at h
  rw [List.find?_eq_none]
  intro a ha hname
  obtain rfl := eq_of_beq hname
  exact h a ha (equalFold_self _)

/-- If the first attribute with a name in any case is spelled so, it is the first one that is. -/
theorem find?_of_first? {a : Attribute} (h : first? name attributes = some a) (hname : a.name = name) :
    attributes.find? (·.name == name) = some a := by
  obtain ⟨-, before, behind, rfl, hbefore⟩ := List.find?_eq_some_iff_append.1 h
  refine List.find?_eq_some_iff_append.2 ⟨by rw [hname, beq_self_eq_true], before, behind, rfl, ?_⟩
  intro b hb
  rw [Bool.not_eq_true', beq_eq_false_iff_ne]
  rintro rfl
  have hb' := hbefore b hb
  rw [equalFold_self] at hb'
  cases hb'

theorem value?_eq_iff : value? name attributes = (attributes.find? (·.name == name)).bind (·.value) ↔
    FirstAsSpelled name attributes := by
  rw [value?_eq]
  unfold FirstAsSpelled
  cases hfirst : first? name attributes with
  | none =>
    rw [find?_eq_none_of_first? hfirst]
    simp
  | some a =>
    have hspelled (hname : a.name = name) :
        a.value = (attributes.find? (·.name == name)).bind (·.value) := by
      rw [find?_of_first? hfirst hname]
      rfl
    constructor
    · rintro h _ ⟨⟩
      exact .inr h
    · exact fun h => (h a rfl).elim hspelled id

/-- The last attribute that is spelled like a name, as an entry, is the first one with the name in any
case just when it is the same in an object. -/
theorem entry_eq_iff : (attributes.reverse.find? (·.name == name)).map (entry ·.value) =
      (first? name attributes).map (entry ·.value) ↔ LastAsSpelled name attributes := by
  unfold LastAsSpelled
  cases hfirst : first? name attributes with
  | none =>
    have hnone : attributes.reverse.find? (·.name == name) = none := by
      have hspelled := find?_eq_none_of_first? hfirst
      rw [List.find?_eq_none] at hspelled ⊢
      exact fun a ha => hspelled a (List.mem_reverse.1 ha)
    rw [hnone]
    simp
  | some a =>
    rw [Option.map_some, Option.map_eq_some_iff]
    constructor
    · rintro ⟨last, hlast, hentry⟩ _ ⟨⟩
      obtain ⟨hname, behind, before, hreverse, hbehind⟩ := List.find?_eq_some_iff_append.1 hlast
      refine ⟨before.reverse, last, behind.reverse, ?_, eq_of_beq hname, fun b hb => ?_, hentry⟩
      · simpa using congrArg List.reverse hreverse
      · simpa using hbehind b (List.mem_reverse.1 hb)
    · intro h
      obtain ⟨before, last, behind, rfl, hname, hbehind, hentry⟩ := h a rfl
      refine ⟨last, List.find?_eq_some_iff_append.2 ⟨by rw [hname, beq_self_eq_true],
        behind.reverse, before.reverse, by simp, fun b hb => ?_⟩, hentry⟩
      simpa using hbehind b (List.mem_reverse.1 hb)

/-- A name that is given once and as it is spelled is the same to all readers. -/
theorem GivenOnce.spelled (h : GivenOnce name attributes) : GivenAsSpelled name attributes ∧
    FirstAsSpelled name attributes ∧ LastAsSpelled name attributes := by
  refine ⟨fun ⟨a, ha, hname⟩ => ?_, fun a ha => .inl (h a ha).1, fun a ha => ?_⟩
  · cases hfirst : first? name attributes with
    | none => exact absurd hname (List.find?_eq_none.1 hfirst a ha)
    | some b => exact ⟨b, List.mem_of_find?_eq_some hfirst, (h b hfirst).1⟩
  · obtain ⟨hname, hlength⟩ := h a ha
    obtain ⟨hfold, before, behind, rfl, -⟩ := List.find?_eq_some_iff_append.1 ha
    refine ⟨before, a, behind, rfl, hname, ?_, rfl⟩
    rintro b hb rfl
    simp only [List.filter_append, List.filter_cons, hfold, if_true, List.length_append,
      List.length_cons] at hlength
    have hbehind : b ∈ behind.filter fun x => equalFold x.name.toList b.name.toList :=
      List.mem_filter.2 ⟨hb, equalFold_self _⟩
    have hpos := List.length_pos_of_mem hbehind
    omega

end Attribute

/-! ### What reading a file takes from them -/

namespace Component

/-- What a field of a block says of an attribute: whether the block has it. -/
structure Flag where
  value : Bool
  name : String
  block : Block

/-- The fields of the blocks of a component that say whether there is an attribute. -/
def flags (c : Component) : List Flag :=
  (c.template.map fun b => ⟨b.functional, "functional", b.toBlock⟩).toList ++
    ((c.script.map fun b => ⟨b.setup, "setup", b.toBlock⟩).toList ++
      ((c.setupScript.map fun b => ⟨b.setup, "setup", b.toBlock⟩).toList ++
        c.styles.flatMap fun b => [⟨b.isScoped, "scoped", b.toBlock⟩,
          ⟨b.moduleName.isSome, "module", b.toBlock⟩]))

theorem forall_flags_iff {c : Component} {P : Flag → Prop} : (∀ f ∈ c.flags, P f) ↔
    (∀ b ∈ c.template, P ⟨b.functional, "functional", b.toBlock⟩) ∧
    (∀ b ∈ c.script, P ⟨b.setup, "setup", b.toBlock⟩) ∧
    (∀ b ∈ c.setupScript, P ⟨b.setup, "setup", b.toBlock⟩) ∧
    ∀ b ∈ c.styles, P ⟨b.isScoped, "scoped", b.toBlock⟩ ∧
      P ⟨b.moduleName.isSome, "module", b.toBlock⟩ := by
  simp only [flags, List.forall_mem_append, List.forall_mem_flatMap, List.forall_mem_cons,
    List.not_mem_nil, false_imp_iff, implies_true, and_true]
  cases c.template <;> cases c.script <;> cases c.setupScript <;> simp

/-- What the fields of blocks say of attributes, as reading a file takes it: from the first attribute with
the name in any case. -/
structure ReadInAnyCase (c : Component) : Prop where
  lang : ∀ x ∈ c.blocks, x.2.lang = Attribute.value? "lang" x.2.attributes
  flag : ∀ f ∈ c.flags, f.value = Attribute.has f.name f.block.attributes

theorem isSome_moduleName_styleOf (block : Block) :
    (styleOf block).moduleName.isSome = Attribute.has "module" block.attributes := by
  unfold styleOf
  dsimp only
  split
  · next h => rw [h]; rfl
  · next h => rw [Bool.not_eq_true] at h; rw [h]; rfl

theorem readInAnyCase_addBlock {c : Component} (h : c.ReadInAnyCase) (lines : LineIndex)
    (tag : String) {block : Block} (hlang : block.lang = Attribute.value? "lang" block.attributes) :
    (c.addBlock lines tag block).ReadInAnyCase := by
  constructor
  case lang =>
    rcases addBlock_adds c lines tag block with hadds | ⟨p, heq⟩
    · obtain ⟨map, hperm⟩ := hadds.blocks
      intro x hx
      rcases List.mem_cons.1 (hperm.mem_iff.1 hx) with rfl | hx
      · exact hlang
      · exact h.lang x hx
    · rw [heq]
      exact h.lang
  case flag =>
    obtain ⟨htemplate, hscript, hsetup, hstyles⟩ := forall_flags_iff.1 h.flag
    have hadds := c.addsBlock lines tag block
    generalize c.addBlock lines tag block = d at hadds ⊢
    refine forall_flags_iff.2 ?_
    have hnew {α : Type} {b : α} {P : α → Prop} (hb : P b) : ∀ x ∈ some b, P x := by
      rintro _ ⟨⟩
      exact hb
    cases hadds with
    | template => exact ⟨hnew rfl, hscript, hsetup, hstyles⟩
    | setup => exact ⟨htemplate, hscript, hnew rfl, hstyles⟩
    | script => exact ⟨htemplate, hnew rfl, hsetup, hstyles⟩
    | style =>
      refine ⟨htemplate, hscript, hsetup, List.forall_mem_append.2 ⟨hstyles, ?_⟩⟩
      exact List.forall_mem_singleton.2 ⟨rfl, isSome_moduleName_styleOf block⟩
    | _ => exact ⟨htemplate, hscript, hsetup, hstyles⟩

theorem readInAnyCase_readBlock {c : Component} (h : c.ReadInAnyCase) (lines : LineIndex)
    (a : Cursor) : (c.readBlock lines a).1.ReadInAnyCase := by
  rcases readBlock_cases c lines a with heq | ⟨opening, problems, block, closed, next, -, heq, hread⟩
  · rwa [heq]
  · rw [heq]
    refine readInAnyCase_addBlock ?_ lines _ hread.lang
    exact ⟨h.lang, h.flag⟩

/-- In every file, what the fields of the blocks say of attributes holds in any case. -/
theorem readInAnyCase_parse (source filename : String) :
    (parse source filename).ReadInAnyCase := by
  obtain ⟨last, states, hloop, -⟩ := ends_blocks source filename
  refine hloop.invariant (P := fun s => s.1.ReadInAnyCase) ?_ ?_ _ hloop.last_mem
  · rintro ⟨c, a⟩ ⟨d, b⟩ hc hstep
    rcases blockStep_cases (.ofText source) c a with ⟨hnone, -⟩ | ⟨d', b', hsome, -, hread, -⟩
    · rw [hnone] at hstep
      cases hstep
    · obtain ⟨rfl, rfl⟩ := Prod.mk.inj (Option.some.inj (hsome.symm.trans hstep))
      rcases hread with rfl | ⟨start, -, heq⟩
      · exact hc
      · rw [show d' = (c.readBlock (.ofText source) start).1 from congrArg Prod.fst heq]
        exact readInAnyCase_readBlock hc _ start
  · exact ⟨by simp [blocks], by simp [flags]⟩

/-! ### What all readers find -/

def documents (c : Component) : List (Block × Json) :=
  (c.template.map fun b => (b.toBlock, b.toJson)).toList ++
    ((c.script.map fun b => (b.toBlock, b.toJson)).toList ++
      ((c.setupScript.map fun b => (b.toBlock, b.toJson)).toList ++
        (c.styles.map (fun b => (b.toBlock, b.toJson)) ++
          c.customBlocks.map fun b => (b.toBlock, b.toJson))))

theorem documents_blocks (c : Component) : c.documents.map (·.1) = c.blocks.map (·.2) := by
  unfold documents blocks
  cases c.template <;> cases c.script <;> cases c.setupScript <;> simp [Function.comp_def]

end Component

/-- The entry of an attribute in the JSON form of a block, the last of a repeated key taken. -/
def Json.attributeField? (name : String) (document : Json) : Option Json :=
  (document.sorted.get? "attrs").bind (·.get? name)

theorem Attribute.get?_toJson (name : String) (attributes : List Attribute) :
    (Attribute.toJson attributes).sorted.get? name =
      (attributes.reverse.find? (·.name == name)).map (Attribute.entry ·.value) := by
  have hsorted (a : Attribute) : (Attribute.entry a.value).sorted = Attribute.entry a.value := by
    unfold Attribute.entry
    split
    · split <;> rfl
    · rfl
  have hlookup (as : List Attribute) : Json.lookup name (as.map fun a => (a.name, entry a.value)) =
      (as.find? (·.name == name)).map (entry ·.value) := by
    induction as with
    | nil => rfl
    | cons a as ih =>
      rw [List.map_cons, Json.lookup, ih, List.find?_cons]
      by_cases hname : a.name = name
      · rw [if_pos hname.symm, beq_iff_eq.2 hname]
        rfl
      · rw [if_neg (Ne.symm hname), beq_eq_false_iff_ne.2 hname]
  have hform : Attribute.toJson attributes =
      .object (attributes.map fun a => (a.name, entry a.value)) := rfl
  rw [hform, Json.get?_sorted, ← List.map_reverse, hlookup, Option.map_map]
  exact Option.map_congr fun a _ => hsorted a

namespace Component

theorem attributeField?_of_mem {c : Component} {b : Block} {v : Json} (h : (b, v) ∈ c.documents)
    (name : String) : v.attributeField? name =
      (b.attributes.reverse.find? (·.name == name)).map (Attribute.entry ·.value) := by
  have hform : ∃ more, Json.lookup "attrs" more.reverse = none ∧ v = .object (b.fields ++ more) := by
    simp only [documents, List.mem_append, List.mem_map, Option.mem_toList, Option.map_eq_some_iff,
      Prod.mk.injEq] at h
    rcases h with ⟨d, -, rfl, rfl⟩ | ⟨d, -, rfl, rfl⟩ | ⟨d, -, rfl, rfl⟩ | ⟨d, -, rfl, rfl⟩ |
      ⟨d, -, rfl, rfl⟩
    all_goals exact ⟨_, rfl, rfl⟩
  obtain ⟨more, hmore, rfl⟩ := hform
  have hattrs : Json.lookup "attrs" (b.fields ++ more).reverse =
      some (Attribute.toJson b.attributes) := by
    rw [List.reverse_append, Json.lookup_append, hmore]
    rfl
  rw [Json.attributeField?, Json.get?_sorted, hattrs, ← Attribute.get?_toJson]
  rfl

/-- All readers of the attributes of a component find the same: the fields of a block say what the block
itself says when it is asked for an attribute, and the entry of its language is that language, or `true`
where the attribute has no value or an empty one. -/
structure ReadersAgree (c : Component) : Prop where
  lang : ∀ x ∈ c.blocks, x.2.lang = x.2.attribute? "lang"
  flag : ∀ f ∈ c.flags, f.value = f.block.hasAttribute f.name
  entry : ∀ x ∈ c.documents, x.2.attributeField? "lang" =
    (Attribute.first? "lang" x.1.attributes).map fun _ => Attribute.entry x.1.lang

/-- What the readers of a component ask for is spelled as they ask, as far as it makes a difference. -/
structure SpelledAsAsked (c : Component) : Prop where
  lang : ∀ x ∈ c.blocks, Attribute.FirstAsSpelled "lang" x.2.attributes
  flag : ∀ f ∈ c.flags, Attribute.GivenAsSpelled f.name f.block.attributes
  entry : ∀ x ∈ c.blocks, Attribute.LastAsSpelled "lang" x.2.attributes

/-- Names that are given at most once, and as they are asked for, are the same to all readers. -/
theorem SpelledAsAsked.of_givenOnce {c : Component}
    (hlang : ∀ x ∈ c.blocks, Attribute.GivenOnce "lang" x.2.attributes)
    (hflag : ∀ f ∈ c.flags, Attribute.GivenOnce f.name f.block.attributes) : c.SpelledAsAsked where
  lang x hx := (hlang x hx).spelled.2.1
  flag f hf := (hflag f hf).spelled.1
  entry x hx := (hlang x hx).spelled.2.2

namespace ReadInAnyCase

variable {c : Component} (h : c.ReadInAnyCase)

include h

theorem lang_iff {x : String × Block} (hx : x ∈ c.blocks) : x.2.lang = x.2.attribute? "lang" ↔
    Attribute.FirstAsSpelled "lang" x.2.attributes := by
  rw [h.lang x hx]
  exact Attribute.value?_eq_iff

theorem flag_iff {f : Flag} (hf : f ∈ c.flags) : f.value = f.block.hasAttribute f.name ↔
    Attribute.GivenAsSpelled f.name f.block.attributes := by
  rw [h.flag f hf]
  exact Attribute.has_eq_iff

theorem entry_iff {x : Block × Json} (hx : x ∈ c.documents) : x.2.attributeField? "lang" =
      (Attribute.first? "lang" x.1.attributes).map (fun _ => Attribute.entry x.1.lang) ↔
    Attribute.LastAsSpelled "lang" x.1.attributes := by
  have hblock : x.1 ∈ c.blocks.map (·.2) := by
    rw [← documents_blocks]
    exact List.mem_map.2 ⟨x, hx, rfl⟩
  obtain ⟨y, hy, heq⟩ := List.mem_map.1 hblock
  have hlang : (Attribute.first? "lang" x.1.attributes).map (fun _ => Attribute.entry x.1.lang) =
      (Attribute.first? "lang" x.1.attributes).map (Attribute.entry ·.value) := by
    rw [← heq, h.lang y hy, Attribute.value?_eq]
    cases Attribute.first? "lang" y.2.attributes <;> rfl
  rw [attributeField?_of_mem hx, hlang, Attribute.entry_eq_iff]

theorem agree_iff_spelled : c.ReadersAgree ↔ c.SpelledAsAsked := by
  have hdocuments : (∀ x ∈ c.documents, Attribute.LastAsSpelled "lang" x.1.attributes) ↔
      ∀ x ∈ c.blocks, Attribute.LastAsSpelled "lang" x.2.attributes := by
    have hall := congrArg (fun bs : List Block =>
      ∀ b ∈ bs, Attribute.LastAsSpelled "lang" b.attributes) (documents_blocks c)
    simpa only [List.forall_mem_map] using Iff.of_eq hall
  constructor
  · intro hagree
    exact ⟨fun x hx => (h.lang_iff hx).1 (hagree.lang x hx),
      fun f hf => (h.flag_iff hf).1 (hagree.flag f hf),
      hdocuments.1 fun x hx => (h.entry_iff hx).1 (hagree.entry x hx)⟩
  · intro hspelled
    exact ⟨fun x hx => (h.lang_iff hx).2 (hspelled.lang x hx),
      fun f hf => (h.flag_iff hf).2 (hspelled.flag f hf),
      fun x hx => (h.entry_iff hx).2 (hdocuments.2 hspelled.entry x hx)⟩

end ReadInAnyCase

/-- **All readers of attributes find the same just when what they ask for is spelled as they ask**: in
every file, a flag needs one attribute spelled like it if any case of it is given, the first `lang` in any
case has the value of the first one spelled so, and the last one spelled so is the same in an object.  A
file in which each of the names is given once and as it is asked for is the same to all of them. -/
theorem readersAgree_iff (source filename : String) :
    ((parse source filename).ReadersAgree ↔ (parse source filename).SpelledAsAsked) ∧
    ((∀ x ∈ (parse source filename).blocks, Attribute.GivenOnce "lang" x.2.attributes) →
      (∀ f ∈ (parse source filename).flags, Attribute.GivenOnce f.name f.block.attributes) →
      (parse source filename).ReadersAgree) := by
  have hiff := (readInAnyCase_parse source filename).agree_iff_spelled
  exact ⟨hiff, fun hlang hflag => hiff.2 (.of_givenOnce hlang hflag)⟩

/-- A template and a style whose attributes are each given once, in lower case. -/
theorem readersAgree_spelledSource :
    (parse "<template functional lang=\"pug\"></template><style module scoped></style>"
        "/app/A.vue").ReadersAgree ∧
      (parse "<template functional lang=\"pug\"></template><style module scoped></style>"
        "/app/A.vue").SpelledAsAsked := by
  have hagree := (readersAgree_iff
    "<template functional lang=\"pug\"></template><style module scoped></style>" "/app/A.vue").2 ?_ ?_
  · exact ⟨hagree, (readersAgree_iff _ _).1.1 hagree⟩
  · unfold Attribute.GivenOnce
    decide +kernel
  · unfold Attribute.GivenOnce
    decide +kernel

/-- A flag in capital letters is set, but the block does not have it. -/
theorem not_readersAgree_shoutedSource :
    ((parse "<template FUNCTIONAL><a/></template>" "/app/A.vue").flags.map fun f =>
      (f.value, f.name, f.block.hasAttribute f.name)) = [(true, "functional", false)] ∧
    ¬ (parse "<template FUNCTIONAL><a/></template>" "/app/A.vue").ReadersAgree := by
  have hflags : ((parse "<template FUNCTIONAL><a/></template>" "/app/A.vue").flags.map fun f =>
      (f.value, f.name, f.block.hasAttribute f.name)) = [(true, "functional", false)] := by
    decide +kernel
  refine ⟨hflags, fun h => ?_⟩
  have hmem : (true, "functional", false) ∈
      (parse "<template FUNCTIONAL><a/></template>" "/app/A.vue").flags.map fun f =>
        (f.value, f.name, f.block.hasAttribute f.name) := by
    rw [hflags]
    exact List.mem_singleton_self _
  obtain ⟨f, hf, heq⟩ := List.mem_map.1 hmem
  rw [Prod.mk.injEq, Prod.mk.injEq] at heq
  obtain ⟨hvalue, -, hhas⟩ := heq
  have hagree := h.flag f hf
  rw [hvalue, hhas] at hagree
  cases hagree

end Component

end SingleFile
