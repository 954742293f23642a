import SingleFile.Proofs.Transform.Steady

/-!
# The stages at two paces

Each stage of a transformation does the same at two paces, as long as all that it uses is steady at
them.  The body of a plain script is told apart by its block (`Stage.plainFragment`), and the custom
blocks may be alike instead of equal, so that the stages of two components can be compared as well.
-/

namespace SingleFile

open Routine

variable {κ : Type} {alike : HookInput → HookInput → Prop} {cx : Context κ} {p q : Pace}

namespace Stage

/-! ### What is said -/

theorem gives_forIn_log {β : Type} (xs : List β) (event : β → Event) :
    (forIn xs PUnit.unit fun x _ => do
      Routine.log (event x)
      pure (ForInStep.yield PUnit.unit) : Action κ PUnit).Gives (.ok PUnit.unit) := by
  induction xs with
  | nil => rfl
  | cons x xs ih =>
    rw [List.forIn_cons]
    refine Gives.bind_ok (Gives.bind_ok (gives_log _) (gives_done _)) ?_
    exact ih

theorem gives_stopAt (diagnostics : List String) : ∃ o, (stopAt diagnostics : Action κ Unit).Gives o := by
  unfold stopAt
  split
  · exact ⟨_, gives_done ()⟩
  · refine ⟨.error (.diagnostics diagnostics), ?_⟩
    exact Gives.bind_ok (gives_forIn_log _ _) (gives_fail _)

/-! ### Scripts -/

theorem gives_readReference (files : Files) (src file path : String) :
    ∃ o, (readReference files src file path : Action κ String).Gives o := by
  unfold readReference
  split
  · exact ⟨_, gives_done _⟩
  · exact ⟨_, gives_fail _⟩

theorem gives_load (files : Files) (src file : String) :
    ∃ o, (load files src file : Action κ String).Gives o := by
  unfold load
  generalize Path.relativeTo file src = path
  obtain ⟨o, ho⟩ : ∃ o, (readReference files src file path : Action κ String).Gives o :=
    gives_readReference files src file path
  refine ⟨o, ?_⟩
  apply Gives.bind_ok (gives_log _)
  exact ho

theorem agree_compilerFor (h : cx.SteadyAt alike p q) (lang : String) :
    Agree (fun c c' => c = c' ∧ c.SteadyAt p q) (compilerFor (cx.paced p) lang)
      (compilerFor (cx.paced q) lang) := by
  unfold compilerFor
  split
  · refine agree_bind (gives_log _).agree ?_
    rintro _ _ rfl -
    rw [Context.paced_compilers, Context.paced_compilers]
    cases htype : cx.compilers.typeScript with
    | none => exact agree_fail _
    | some c => exact agree_done ⟨rfl, h.compilers.typeScript c htype⟩
  · exact agree_done ⟨rfl, h.compilers.script⟩

theorem agree_compileScript (h : cx.SteadyAt alike p q) (source : String) (lang : Option String) :
    Agree Eq (compileScript (cx.paced p) source lang) (compileScript (cx.paced q) source lang) := by
  unfold compileScript
  dsimp only
  rw [Context.paced_registry, Context.paced_registry]
  cases ht : cx.registry.find? (lang.getD scriptLang) with
  | some t =>
    refine agree_bind (gives_log _).agree ?_
    rintro _ _ rfl -
    refine agree_bind (Context.agree_process (h.transformer ht) (.inl rfl)) ?_
    rintro made _ rfl -
    exact agree_done rfl
  | none =>
    refine agree_bind (agree_compilerFor h _) ?_
    rintro c _ ⟨rfl, hc⟩ -
    exact Context.agree_compile hc _

def plainFragment (file : String) (block : ScriptBlock) (content : String) (made : Fragment) :
    Fragment :=
  match block.src with
  | some src => ⟨withoutMapComment made.code,
      made.map.map fun m => m.retarget (Path.relativeTo file src) content⟩
  | none => ⟨withoutMapComment made.code, SourceMap.merge? block.map made.map⟩

/-- Plain scripts with the same text in the same language are compiled to the same code. -/
theorem agree_plainBody (h : cx.SteadyAt alike p q) {block block' : ScriptBlock}
    (hcontent : block.content = block'.content) (hlang : block.lang = block'.lang)
    (hsrc : block.src = block'.src) :
    Agree (fun f f' => ∃ content made, f = plainFragment cx.file block content made ∧
        f' = plainFragment cx.file block' content made)
      (plainBody (cx.paced p) block) (plainBody (cx.paced q) block') := by
  unfold plainBody plainFragment
  rw [← hsrc, ← hcontent, ← hlang]
  cases block.src with
  | some src =>
    obtain ⟨o, ho⟩ : ∃ o, (load cx.files src cx.file : Action κ String).Gives o :=
      gives_load cx.files src cx.file
    refine agree_bind ho.agree ?_
    rintro content _ rfl -
    refine agree_bind (agree_compileScript h _ _) ?_
    rintro made _ rfl -
    exact agree_done ⟨content, made, rfl, rfl⟩
  | none =>
    refine agree_bind (agree_compileScript h _ _) ?_
    rintro made _ rfl -
    exact agree_done ⟨block.content, made, rfl, rfl⟩

theorem agree_setupBody (h : cx.SteadyAt alike p q) (component : Component) (block : ScriptBlock) :
    Agree Eq (setupBody (cx.paced p) component block) (setupBody (cx.paced q) component block) := by
  unfold setupBody
  rw [Context.paced_compilers, Context.paced_compilers]
  cases hsetup : cx.compilers.setup with
  | none => exact agree_fail _
  | some c =>
    refine agree_bind (Context.agree_compile (h.compilers.setup c hsetup) _) ?_
    rintro script _ rfl -
    refine agree_bind (agree_compileScript h _ _) ?_
    rintro made _ rfl -
    exact agree_done rfl

theorem agree_body (h : cx.SteadyAt alike p q) (component : Component) :
    Agree Eq (body (cx.paced p) component) (body (cx.paced q) component) := by
  unfold body
  split
  · refine agree_bind (agree_setupBody h _ _) ?_
    rintro made _ rfl -
    exact agree_done rfl
  · refine agree_bind (agree_plainBody h rfl rfl rfl) ?_
    rintro _ _ ⟨content, made, rfl, rfl⟩ -
    exact agree_done rfl
  · exact agree_done rfl

/-! ### Templates -/

theorem agree_renderContent (h : cx.SteadyAt alike p q) (template : TemplateBlock) (bindings : Option Json)
    (content : String) :
    Agree Eq (renderContent (cx.paced p) template bindings content)
      (renderContent (cx.paced q) template bindings content) := by
  unfold renderContent
  rw [Context.paced_compilers, Context.paced_compilers]
  cases htemplate : cx.compilers.template with
  | none => exact agree_fail _
  | some c =>
    refine agree_bind (Context.agree_compile (h.compilers.template c htemplate) _) ?_
    rintro made _ rfl -
    obtain ⟨o, ho⟩ : ∃ o, (stopAt made.errors : Action κ Unit).Gives o := gives_stopAt made.errors
    refine agree_bind ho.agree ?_
    rintro _ _ rfl -
    exact agree_done rfl

theorem agree_render (h : cx.SteadyAt alike p q) (template : TemplateBlock) (bindings : Option Json) :
    Agree Eq (render (cx.paced p) template bindings) (render (cx.paced q) template bindings) := by
  unfold render
  cases template.src with
  | some src =>
    obtain ⟨o, ho⟩ : ∃ o, (load cx.files src cx.file : Action κ String).Gives o :=
      gives_load cx.files src cx.file
    refine agree_bind ho.agree ?_
    rintro content _ rfl -
    exact agree_renderContent h template bindings content
  | none => exact agree_renderContent h template bindings template.content

/-! ### Styles -/

theorem gives_styleContent (cx : Context κ) (style : StyleBlock) : ∃ o, (styleContent cx style).Gives o := by
  unfold styleContent
  split
  · exact ⟨_, gives_done _⟩
  · next src _ =>
    obtain ⟨o, ho⟩ : ∃ o, (readReference cx.files src cx.file
        (Resolution.resolveMapped cx.files cx.nameMap src cx.file style.lang) :
        Action κ String).Gives o := gives_readReference cx.files src cx.file _
    cases o with
    | ok content =>
      exact ⟨_, Gives.bind_ok (gives_log _) (Gives.bind_ok ho (gives_done _))⟩
    | error e => exact ⟨_, Gives.bind_ok (gives_log _) (Gives.bind_error ho)⟩

theorem gives_classMap (css : String) : ∃ o, (classMap css : Action κ String).Gives o := by
  unfold classMap
  split
  · exact ⟨_, gives_done _⟩
  · exact ⟨_, gives_fail _⟩

theorem agree_compileStyle (h : cx.SteadyAt alike p q) (content file : String) (lang : Option String) :
    Agree Eq (compileStyle (cx.paced p) content file lang)
      (compileStyle (cx.paced q) content file lang) := by
  refine agree_bind (Context.agree_compile h.compilers.style _) ?_
  rintro made _ rfl -
  obtain ⟨o, ho⟩ : ∃ o, (stopAt made.errors : Action κ Unit).Gives o := gives_stopAt made.errors
  refine agree_bind ho.agree ?_
  rintro _ _ rfl -
  exact agree_done rfl

/-- A transformer that cannot prepare a style leaves it as it is. -/
theorem gives_prepared {t : Transformer κ} (ht : t.SteadyAt alike p q) (hhook : t.hooks.preprocess = true)
    (text : StyleText) : ∃ o, (prepared t text).Gives o := by
  obtain ⟨o, ho⟩ := ht.preprocess hhook text
  cases o with
  | ok content => exact ⟨_, Gives.bind_ok (gives_outcome ho) (gives_done _)⟩
  | error fault =>
    exact ⟨_, Gives.bind_ok (gives_outcome ho) (Gives.bind_ok (gives_log _) (gives_done _))⟩

/-- The text of a style as the hooks of a transformer are given it. -/
def styleText (cx : Context κ) (style : StyleBlock) (file content : String) : StyleText :=
  ⟨content, file, cx.settings, style.attributes⟩

/-- What a transformer makes of a style that has been prepared. -/
def processPrepared (cx : Context κ) (t : Transformer κ) (style : StyleBlock) (file content : String) :
    Action κ String := do
  let css ←
    if t.hooks.canProcess then do
      pure (← cx.process t (.style (styleText cx style file content))).code
    else compileStyle cx content file style.lang
  if t.hooks.postprocess then Work.act (t.postprocess (styleText cx style file css))
  else classMap css

theorem agree_processPrepared (h : cx.SteadyAt alike p q) {t : Transformer κ} (ht : t.SteadyAt alike p q)
    (style : StyleBlock) (file content : String) :
    Agree Eq (processPrepared (cx.paced p) t style file content)
      (processPrepared (cx.paced q) t style file content) := by
  have hpost (css : String) : ∃ o, (if t.hooks.postprocess then
      Work.act (t.postprocess (styleText cx style file css)) else classMap css).Gives o := by
    split
    · next hhook =>
      obtain ⟨o, ho⟩ := ht.postprocess hhook (styleText cx style file css)
      exact ⟨_, gives_mapError ho⟩
    · exact gives_classMap css
  unfold processPrepared
  dsimp only
  split
  · refine agree_bind (Context.agree_process ht (.inl rfl)) ?_
    rintro made _ rfl -
    obtain ⟨o, ho⟩ := hpost made.code
    exact ho.agree
  · refine agree_bind (agree_compileStyle h _ _ _) ?_
    rintro css _ rfl -
    obtain ⟨o, ho⟩ := hpost css
    exact ho.agree

theorem agree_processStyle (h : cx.SteadyAt alike p q) (style : StyleBlock) (content file : String) :
    Agree Eq (processStyle (cx.paced p) style content file)
      (processStyle (cx.paced q) style content file) := by
  unfold processStyle
  rw [Context.paced_registry, Context.paced_registry]
  cases ht : cx.registry.find? (style.lang.getD styleLang) with
  | none =>
    refine agree_bind (agree_compileStyle h _ _ _) ?_
    rintro css _ rfl -
    obtain ⟨o, ho⟩ : ∃ o, (classMap css : Action κ _).Gives o := gives_classMap css
    exact ho.agree
  | some t =>
    have hsteady := h.transformer ht
    dsimp only
    split
    · next hhook =>
      obtain ⟨o, ho⟩ := gives_prepared hsteady hhook (styleText cx style file content)
      refine agree_bind ho.agree ?_
      rintro prepared _ rfl -
      exact agree_processPrepared h hsteady style file prepared
    · exact agree_processPrepared h hsteady style file content

theorem agree_styleResult (h : cx.SteadyAt alike p q) (style : StyleBlock) :
    Agree Eq (styleResult (cx.paced p) style) (styleResult (cx.paced q) style) := by
  have hvalue : Agree Eq (styleValue (cx.paced p) style) (styleValue (cx.paced q) style) := by
    obtain ⟨o, ho⟩ := gives_styleContent cx style
    refine agree_bind ho.agree ?_
    rintro ⟨content, file⟩ _ rfl -
    show Agree Eq (if !cx.options.stylesCompiled || content.isEmpty then _ else _)
      (if !cx.options.stylesCompiled || content.isEmpty then _ else _)
    split
    · exact agree_done rfl
    · exact agree_processStyle h style _ file
  refine agree_bind hvalue ?_
  rintro value _ rfl -
  exact agree_done rfl

/-! ### Custom blocks -/

/-- Two lists of custom blocks that a transformer cannot tell apart. -/
def AlikeBlocks (alike : HookInput → HookInput → Prop) (cx : Context κ)
    (blocks blocks' : List CustomBlock) : Prop :=
  blocks = blocks' ∨ alike (.customBlocks blocks optionsName cx.file cx.settings)
    (.customBlocks blocks' optionsName cx.file cx.settings)

theorem agree_kindCode (h : cx.SteadyAt alike p q) (kind : String) {blocks blocks' : List CustomBlock}
    (hblocks : AlikeBlocks alike cx blocks blocks') :
    Agree Eq (kindCode (cx.paced p) kind blocks) (kindCode (cx.paced q) kind blocks') := by
  unfold kindCode
  rw [Context.paced_registry, Context.paced_registry]
  cases ht : cx.registry.find? kind with
  | none =>
    refine agree_bind (gives_log _).agree ?_
    rintro _ _ rfl -
    exact agree_done rfl
  | some t =>
    have hi : HookInput.customBlocks blocks optionsName cx.file cx.settings =
          .customBlocks blocks' optionsName cx.file cx.settings ∨
        alike (.customBlocks blocks optionsName cx.file cx.settings)
          (.customBlocks blocks' optionsName cx.file cx.settings) := by
      rcases hblocks with rfl | hblocks
      · exact .inl rfl
      · exact .inr hblocks
    refine agree_bind (Context.agree_process (h.transformer ht) hi) ?_
    rintro made _ rfl -
    exact agree_done rfl

theorem agree_inTurn {σ ε α : Type} {ps qs : List (Routine σ ε α)}
    (h : List.Forall₂ (Agree Eq) ps qs) : Agree Eq (inTurn ps) (inTurn qs) := by
  induction h with
  | nil => exact agree_done rfl
  | cons hp _ ih =>
    refine agree_bind hp ?_
    rintro a _ rfl -
    refine agree_bind ih ?_
    rintro as _ rfl -
    exact agree_done rfl

theorem agree_customCode (h : cx.SteadyAt alike p q) (blocks : List CustomBlock) :
    Agree Eq (customCode (cx.paced p) blocks) (customCode (cx.paced q) blocks) := by
  have hkinds : List.Forall₂ (Agree Eq)
      ((byKind blocks).map fun g => kindCode (cx.paced p) g.1 g.2)
      ((byKind blocks).map fun g => kindCode (cx.paced q) g.1 g.2) := by
    rw [List.forall₂_map_left_iff, List.forall₂_map_right_iff]
    exact List.forall₂_same.2 fun g _ => agree_kindCode h g.1 (.inl rfl)
  refine agree_bind (agree_inTurn hkinds) ?_
  rintro codes _ rfl -
  split <;> exact agree_done rfl

end Stage

end SingleFile
