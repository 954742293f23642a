import SingleFile.Proofs.Assembly.Layout
import SingleFile.Proofs.SourceMap.Finish
import SingleFile.Proofs.Text.Search

/-!
# What the map of an assembled module answers

A module is laid out from two fragments, the script and the template (`Assembly.laid`); all other
text is generated.  `Assembly.holds_draft` follows the layout step by step.
**`Assembly.original?_parse_assemble`** says what the map of the module answers once it has been
written and read: for a character of a fragment what the fragment's own map answers, and nothing on
lines without such a character.
-/

namespace SingleFile

/-! ### Numbers of fragments -/

namespace Fragment

/-- The names of the sources of a fragment. -/
def sources (f : Fragment) : List String := (f.map.map (·.sourceNames)).getD []

/-- The names that the map of a fragment lists. -/
def names (f : Fragment) : List String := (f.map.map (·.names)).getD []

def Words (f : Fragment) : Prop :=
  ∀ map ∈ f.map, ∀ e ∈ map.entries, e.original.line < 2 ^ 32 ∧ e.original.column < 2 ^ 32

instance (f : Fragment) : Decidable f.Words :=
  inferInstanceAs (Decidable (∀ map ∈ f.map, ∀ e ∈ map.entries,
    e.original.line < 2 ^ 32 ∧ e.original.column < 2 ^ 32))

variable {f : Fragment} {front : List Char} {e : MapEntry}

/-- A mapping of a fragment says what a mapping of its map says. -/
theorem exists_entry_of_mem (he : e ∈ f.entriesAfter front) :
    ∃ map, f.map = some map ∧ ∃ x ∈ map.entries,
      e.original = x.original ∧ e.source = x.source ∧ e.name = x.name := by
  cases hmap : f.map with
  | none =>
    rw [entriesAfter_of_none hmap] at he
    exact absurd he List.not_mem_nil
  | some map =>
    rw [entriesAfter_of_some hmap] at he
    obtain ⟨x, hx, rfl⟩ := List.mem_map.1 he
    exact ⟨map, rfl, x, (List.mem_filter.1 hx).1, rfl, rfl, rfl⟩

theorem mem_sources (he : e ∈ f.entriesAfter front) {s : String} (hs : e.source = some s) :
    s ∈ f.sources := by
  obtain ⟨map, hmap, x, hx, -, hsource, -⟩ := exists_entry_of_mem he
  obtain ⟨m, -, rfl⟩ := List.mem_map.1 hx
  obtain ⟨i, -, hi⟩ := Option.bind_eq_some_iff.1 (hsource.symm.trans hs)
  rw [sources, hmap]
  exact List.mem_of_getElem? hi

theorem mem_names (he : e ∈ f.entriesAfter front) {s : String} (hs : e.name = some s) :
    s ∈ f.names := by
  obtain ⟨map, hmap, x, hx, -, -, hname⟩ := exists_entry_of_mem he
  obtain ⟨m, -, rfl⟩ := List.mem_map.1 hx
  obtain ⟨i, -, hi⟩ := Option.bind_eq_some_iff.1 (hname.symm.trans hs)
  rw [names, hmap]
  exact List.mem_of_getElem? hi

theorem Traceable.isSome_source (hf : f.Traceable) (he : e ∈ f.entriesAfter front) :
    e.source.isSome = true := by
  obtain ⟨map, hmap, x, hx, -, hsource, -⟩ := exists_entry_of_mem he
  rw [hsource]
  exact hf.source map hmap x hx

end Fragment

namespace Draft

variable {d : Draft} {xs : List Laid}

/-- The mappings of a draft, by the fragments that they come from. -/
theorem Holds.exists_of_mem (h : d.Holds xs) {e : MapEntry} (he : e ∈ d.entries) :
    ∃ x ∈ xs, e ∈ x.fragment.entriesAfter x.front := by
  rw [h.entries] at he
  exact List.mem_flatMap.1 he

/-- The mappings of a draft that is not too large fit into a map. -/
theorem Holds.fits (h : d.Holds xs) (hxs : ∀ x ∈ xs, x.fragment.Traceable)
    (hwords : ∀ x ∈ xs, x.fragment.Words) (hcode : byteLength d.code < 2 ^ 32) :
    ∀ e ∈ d.entries,
      e.Fits (xs.flatMap (·.fragment.sources)) (xs.flatMap (·.fragment.names)) := by
  intro e he
  obtain ⟨x, hx, hex⟩ := h.exists_of_mem he
  refine ⟨?_, fun n hn => ?_, ?_, ?_⟩
  · obtain ⟨s, hs⟩ := Option.isSome_iff_exists.1 ((hxs x hx).isSome_source hex)
    exact ⟨s, List.mem_flatMap.2 ⟨x, hx, Fragment.mem_sources hex hs⟩, hs⟩
  · exact List.mem_flatMap.2 ⟨x, hx, Fragment.mem_names hex hn⟩
  · obtain ⟨a, c, b, hfragment, hp⟩ := (hxs x hx).placed.exists_of_mem hex
    obtain ⟨t, ht⟩ := h.code x hx
    have hcut : d.code = (x.front ++ a) ++ (c :: b ++ t) := by
      rw [← ht, Laid.code, hfragment]
      simp
    have hbytes : byteLength (x.front ++ a) ≤ byteLength d.code := by
      rw [hcut, byteLength_append (x.front ++ a)]
      exact Nat.le_add_right _ _
    have hcolumn := Position.column_after_le .origin (x.front ++ a)
    have hunits := units_le_byteLength (x.front ++ a)
    rw [hp]
    rw [Position.column_origin] at hcolumn
    omega
  · obtain ⟨map, hmap, y, hy, horiginal, -⟩ := Fragment.exists_entry_of_mem hex
    rw [horiginal]
    exact hwords x hx map hmap y hy

end Draft

namespace Assembly

/-! ### The layout -/

/-- The text above the template. -/
def templateFront (a : Assembly) : List Char := (startLine (pushLine a.body a.aliasLine)).code

/-- The fragments of a module, each with the text before it. -/
def laid (a : Assembly) : List Laid :=
  (a.script.map fun f => ⟨[], f⟩).toList ++ (a.template.map fun f => ⟨a.templateFront, f⟩).toList

theorem holds_startLine {d : Draft} {xs : List Laid} (h : d.Holds xs) : (startLine d).Holds xs :=
  startLine_of_push (P := fun d => d.Holds xs) (fun _ text h => Draft.holds_push h text) h

theorem holds_pushLine {d : Draft} {xs : List Laid} (h : d.Holds xs) (text : String) :
    (pushLine d text).Holds xs :=
  pushLine_of_push (P := fun d => d.Holds xs) (fun _ text h => Draft.holds_push h text) h text

theorem holds_body (a : Assembly) : a.body.Holds (a.script.map fun f => ⟨[], f⟩).toList := by
  unfold body
  cases a.script with
  | none => exact Draft.holds_push Draft.holds_empty _
  | some f => exact Draft.holds_pushFragment Draft.holds_empty (.inl rfl) f

/-! ### The render helper -/

theorem not_infix_append {p a b : List Char} (hp : '\n' ∉ p) (ha : StartsLine a)
    (hpa : ¬ p <:+: a) (hpb : ¬ p <:+: b) : ¬ p <:+: a ++ b := by
  rcases ha with rfl | ⟨s, rfl⟩
  · exact hpb
  · intro h
    rw [List.append_assoc, List.singleton_append] at h
    rcases infix_or_infix_of_infix_append_cons hp h with h | h
    · exact hpa (h.trans (List.prefix_append _ _).isInfix)
    · exact hpb h

theorem break_notMem_renderHelper : '\n' ∉ renderHelper := by
  rw [show renderHelper = _ from String.toList_ofList]
  decide

theorem renderHelper_ne_nil : renderHelper ≠ [] := by
  rw [show renderHelper = _ from String.toList_ofList]
  decide

/-- A text without a bar has no helper in it. -/
theorem not_infix_of_bar {text : List Char} (h : '|' ∉ text) : ¬ renderHelper <:+: text := by
  intro hi
  refine h (hi.subset ?_)
  rw [show renderHelper = _ from String.toList_ofList]
  decide

theorem notMem_ofList {c : Char} {cs : List Char} (h : c ∉ cs) : c ∉ (String.ofList cs).toList := by
  rwa [String.toList_ofList]

theorem notMem_append {c : Char} {s t : String} (hs : c ∉ s.toList) (ht : c ∉ t.toList) :
    c ∉ (s ++ t).toList := by
  rw [String.toList_append]
  exact List.not_mem_append hs ht

theorem getLast?_append_ofList (s : String) {cs : List Char} (h : cs.getLast? = some '\n') :
    (s ++ String.ofList cs).toList.getLast? = some '\n' := by
  rw [String.toList_append, String.toList_ofList, List.getLast?_append, h]
  rfl

/-- The name of the default export stands in the code. -/
theorem infix_of_defaultName? {code name : List Char} (h : defaultName? code = some name) :
    name <:+: code := by
  induction code with
  | nil => simp [defaultName?] at h
  | cons c r ih =>
    rw [defaultName?] at h
    cases hs : stripPrefix? "export \x7b ".toList (c :: r) with
    | none =>
      rw [hs] at h
      exact (ih h).trans (List.infix_cons (List.infix_refl r))
    | some rest =>
      rw [hs] at h
      cases hl : splitLast? " as default \x7d".toList (rest.takeWhile (· ≠ '\n')) with
      | none =>
        simp only [Option.bind_eq_bind, Option.bind_some, hl, Option.bind_none] at h
        exact (ih h).trans (List.infix_cons (List.infix_refl r))
      | some ab =>
        obtain ⟨name', tail⟩ := ab
        simp only [Option.bind_eq_bind, Option.bind_some, hl] at h
        obtain rfl : name' = name := Option.some.inj h
        have hline := splitLast_eq hl
        rw [stripPrefix?_eq_some_iff.1 hs]
        refine List.IsInfix.trans ⟨[], " as default \x7d".toList ++ tail, ?_⟩
          ((List.takeWhile_prefix (p := (· ≠ '\n')) (l := rest)).isInfix.trans
            (List.suffix_append _ rest).isInfix)
        rw [hline]
        simp

theorem not_infix_optionsAlias {esm : Bool} {code : List Char} (h : ¬ renderHelper <:+: code) :
    ¬ renderHelper <:+: (optionsAlias esm code).1.toList := by
  cases esm with
  | false =>
    refine not_infix_of_bar (notMem_append (notMem_append (notMem_append ?_ ?_) ?_) ?_)
    all_goals exact notMem_ofList (by decide)
  | true =>
    unfold optionsAlias
    cases hn : defaultName? code with
    | none =>
      refine not_infix_of_bar (notMem_append (notMem_append ?_ ?_) ?_)
      all_goals exact notMem_ofList (by decide)
    | some name =>
      have hsplit : ("const " ++ optionsName ++ " = " ++ String.ofList name ++ ".options\n").toList =
          ("const " ++ optionsName ++ " = ").toList ++ (name ++ ".options\n".toList) := by
        simp
      intro hi
      simp only [if_true] at hi
      rw [hsplit] at hi
      have hfront := infix_of_infix_append_of_head (c := 'v') (t := renderHelper.tail)
        (by decide +kernel) hi
      have hname := infix_of_infix_append_of_last (c := 'h') (t := renderHelper.dropLast)
        (by decide +kernel) hfront
      exact h (hname.trans (infix_of_defaultName? hn))

theorem not_infix_body {a : Assembly} (h : ∀ f ∈ a.script, ¬ renderHelper <:+: f.code.toList) :
    ¬ renderHelper <:+: a.body.code := by
  unfold body
  cases hs : a.script with
  | none =>
    rw [Draft.code_push, List.nil_append]
    cases a.esm with
    | true => exact not_infix_of_bar (notMem_ofList (by decide))
    | false =>
      exact not_infix_of_bar (notMem_append (notMem_ofList (by decide)) (notMem_ofList (by decide)))
  | some f =>
    show ¬ renderHelper <:+: (Draft.pushFragment (startLine {}) f.code.toList f.map).code
    rw [Draft.code_pushFragment]
    exact h f hs

/-- The alias is a whole line. -/
theorem exists_optionsAlias_eq (esm : Bool) (code : List Char) :
    ∃ s, (optionsAlias esm code).1.toList = s ++ ['\n'] := by
  cases esm with
  | false =>
    exact List.getLast?_eq_some_iff.1 (getLast?_append_ofList _ rfl)
  | true =>
    unfold optionsAlias
    cases defaultName? code with
    | none => exact List.getLast?_eq_some_iff.1 (getLast?_append_ofList _ rfl)
    | some name =>
      exact ⟨("const " ++ optionsName ++ " = " ++ String.ofList name ++ ".options").toList, by simp⟩

/-! ### The draft -/

theorem startsLine_pushLine_alias (a : Assembly) :
    StartsLine (pushLine a.body a.aliasLine).code := by
  obtain ⟨s, hs⟩ := exists_optionsAlias_eq a.esm a.body.code
  refine .inr ⟨(startLine a.body).code ++ s, ?_⟩
  rw [List.append_assoc, ← hs]
  rfl

theorem not_infix_startLine {p : List Char} {d : Draft} (hp : '\n' ∉ p) (hne : p ≠ [])
    (h : ¬ p <:+: d.code) : ¬ p <:+: (startLine d).code := by
  unfold startLine
  split
  · exact h
  · intro hi
    rcases infix_or_infix_of_infix_append_cons hp hi with hi | hi
    · exact h hi
    · exact hne (List.eq_nil_of_infix_nil hi)

section Layout

variable {a : Assembly} (hhelper : ∀ x ∈ a.laid, ¬ renderHelper <:+: x.fragment.code.toList)

include hhelper

/-- Nothing is inserted into the module. -/
theorem insertBeforeLast?_eq_none {f : Fragment} (hf : f ∈ a.template) :
    (pushFragment (pushLine a.body a.aliasLine) f).insertBeforeLast?
      renderHelper coverageComment = none := by
  have hscript : ∀ g ∈ a.script, ¬ renderHelper <:+: g.code.toList := fun g hg =>
    hhelper ⟨[], g⟩ (by simp [laid, Option.mem_def.1 hg])
  have htemplate : ¬ renderHelper <:+: f.code.toList :=
    hhelper ⟨a.templateFront, f⟩ (by simp [laid, Option.mem_def.1 hf])
  have hbody := not_infix_startLine break_notMem_renderHelper renderHelper_ne_nil
    (not_infix_body hscript)
  have halias : ¬ renderHelper <:+: a.aliasLine.toList := not_infix_optionsAlias (not_infix_body hscript)
  have hline := startsLine_pushLine_alias a
  have hall : ¬ renderHelper <:+:
      (pushFragment (pushLine a.body a.aliasLine) f).code := by
    rw [pushFragment, startLine_of_startsLine hline, Draft.code_pushFragment]
    refine not_infix_append break_notMem_renderHelper hline ?_ htemplate
    exact not_infix_append break_notMem_renderHelper (startsLine_startLine a.body) hbody halias
  rw [Draft.insertBeforeLast?, splitLast?_eq_none_iff.2 hall]

/-- **The layout**: a module is made of its fragments. -/
theorem holds_draft : a.draft.Holds a.laid := by
  have halias := holds_pushLine (holds_body a) a.aliasLine
  refine draft_of_lines (P := fun d => d.Holds a.laid) a ?_ fun _ text h => holds_pushLine h text
  unfold templateDraft laid
  cases htemplate : a.template with
  | none =>
    rw [Option.map_none, Option.toList_none, List.append_nil]
    exact halias
  | some f =>
    have hpushed : pushTemplate a.isFunctional (pushLine a.body a.aliasLine) f =
        (pushFragment (pushLine a.body a.aliasLine) f).push (renderWiring a.isFunctional).toList := by
      rw [pushTemplate, insertBeforeLast?_eq_none hhelper htemplate]
      rfl
    show (pushTemplate _ _ f).Holds _
    rw [hpushed]
    exact Draft.holds_push (Draft.holds_pushFragment (holds_startLine halias)
      (startsLine_startLine _) f) _

end Layout

/-! ### Reading the map -/

/-- Everything that the map counts has 32 bits. -/
structure Sized (a : Assembly) : Prop where
  words : ∀ x ∈ a.laid, x.fragment.Words
  code : byteLength a.assemble.1.code.toList < 2 ^ 32
  sources : (a.laid.flatMap (·.fragment.sources)).length ≤ 2 ^ 32
  names : (a.laid.flatMap (·.fragment.names)).length ≤ 2 ^ 32

/-- **What the map of a module answers**: the characters of a fragment have the origins that the
map of the fragment gives them, and lines without such a character have none. -/
theorem original?_parse_assemble (a : Assembly)
    (htraceable : ∀ x ∈ a.laid, x.fragment.Traceable)
    (hhelper : ∀ x ∈ a.laid, ¬ renderHelper <:+: x.fragment.code.toList) (hsized : a.Sized) :
    ∃ parsed, SourceMap.parse a.assemble.1.map.toJson = .ok parsed ∧
      (∀ x ∈ a.laid, x.code <+: a.assemble.1.code.toList ∧
        ∀ before c after, x.fragment.code.toList = before ++ c :: after →
          parsed.original? (Position.origin.after (x.front ++ before)) =
            x.fragment.original? (Position.origin.after before)) ∧
      ∀ p : Position, (∀ x ∈ a.laid, ¬ x.OnLine p.line) → parsed.original? p = none := by
  have hdraft := holds_draft hhelper
  have hcode := hsized.code
  rw [code_assemble] at hcode ⊢
  rw [map_assemble]
  have hfits := hdraft.fits htraceable hsized.words hcode
  obtain ⟨parsed, hparsed, -, hanswer⟩ := Draft.exists_parse_finish hfits hsized.sources hsized.names
  refine ⟨parsed, hparsed, fun x hx => ⟨hdraft.code x hx, ?_⟩, fun p hp => ?_⟩
  · intro before c after hfragment
    rw [hanswer, Draft.resolve_entries hdraft htraceable hx hfragment]
  · rw [hanswer, Draft.resolve_entries_eq_none hdraft htraceable hp]

end Assembly

/-! ### A module of two fragments -/

/-- A module whose script has two sources, a name and two mappings for one character. -/
def answeringSample : Assembly where
  filename := "App.vue"
  esm := true
  isFunctional := false
  script := some ⟨"const é𝄞 = one\nexport \x7b é𝄞 as default \x7d", some (SourceMap.ofEntries none none
    [⟨⟨0, 6⟩, ⟨7, 2⟩, some "src/a.ts", some "name"⟩, ⟨⟨0, 12⟩, ⟨9, 0⟩, some "b.ts", none⟩,
      ⟨⟨0, 12⟩, ⟨9, 9⟩, some "src/a.ts", none⟩, ⟨⟨1, 0⟩, ⟨3, 1⟩, some "b.ts", none⟩] [])⟩
  template := some ⟨"var render = 1", some (SourceMap.ofEntries none none
    [⟨⟨0, 4⟩, ⟨20, 5⟩, some "App.vue", some "render"⟩] [])⟩
  styles := []
  custom := some "custom()"

theorem original?_answeringSample :
    (∀ x ∈ answeringSample.laid, x.fragment.Traceable) ∧
      ∃ parsed, SourceMap.parse answeringSample.assemble.1.map.toJson = .ok parsed ∧
        parsed.original? ⟨0, 12⟩ = some ⟨"b.ts", ⟨9, 0⟩, none⟩ ∧
        parsed.original? ⟨3, 5⟩ = some ⟨"App.vue", ⟨20, 5⟩, some "render"⟩ ∧
        parsed.original? ⟨2, 3⟩ = none := by
  have htraceable : ∀ x ∈ answeringSample.laid, x.fragment.Traceable := by decide +kernel
  have hhelper : ∀ x ∈ answeringSample.laid,
      ¬ Assembly.renderHelper <:+: x.fragment.code.toList := by decide +kernel
  have hcode : byteLength answeringSample.assemble.1.code.toList < 2 ^ 32 := by
    rw [Assembly.code_assemble]
    decide +kernel
  have hsized : answeringSample.Sized :=
    ⟨by decide +kernel, hcode, by decide +kernel, by decide +kernel⟩
  obtain ⟨parsed, hparsed, hanswer, hnone⟩ :=
    Assembly.original?_parse_assemble answeringSample htraceable hhelper hsized
  have hrender : Position.origin.after (answeringSample.templateFront ++ "var r".toList) = ⟨3, 5⟩ := by
    decide +kernel
  refine ⟨htraceable, parsed, hparsed, ?_, ?_, hnone ⟨2, 3⟩ (by decide +kernel)⟩
  · have hscript := (hanswer _ List.mem_cons_self).2 "const é𝄞 = ".toList 'o' _ rfl
    exact hscript.trans (by decide +kernel)
  · have htemplate := (hanswer _ (List.mem_cons_of_mem _ List.mem_cons_self)).2 "var r".toList 'e' _ rfl
    rw [← hrender]
    exact htemplate.trans (by decide +kernel)

end SingleFile
