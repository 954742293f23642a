import SingleFile.Proofs.Assembly.Layout
import SingleFile.Proofs.Transform.Stages

/-!
# Blocking and suspending transformations

A transformation with steady compilers and transformers gives the same module at both paces, and the
suspending one does so in whatever order its styles go on.  Such an order is any routine that
interleaves those of the styles, and `SingleFileTransformer.processWith` takes it in the place of
`Stage.styleResults`.
-/

namespace SingleFile

open Routine

variable {κ : Type}

namespace SingleFileTransformer

/-! ### Orders of the styles -/

/-- How the styles of a component are processed. -/
abbrev StylesStage (κ : Type) := Context κ → List StyleBlock → Action κ (List StyleResult)

/-- Whether the styles are processed in some order of their steps. -/
def StylesStage.Ordered (stage : StylesStage κ) : Prop :=
  ∀ cx styles, Interleaves (styles.map (Stage.styleResult cx)) (stage cx styles)

theorem ordered_styleResults : StylesStage.Ordered (Stage.styleResults : StylesStage κ) := by
  intro cx styles
  unfold Stage.styleResults
  cases cx.pace with
  | blocking => exact Interleaves.inTurn _
  | suspending => exact Interleaves.together _

/-- The parts of the module of a component, with its styles processed by a stage. -/
def partsWith (stage : StylesStage κ) (cx : Context κ) (component : Component) :
    Action κ Assembly := do
  let (script, bindings) ← Stage.body cx component
  let template ← match component.template with
    | some template => do pure (some (← Stage.render cx template bindings))
    | none => pure none
  let styles ← stage cx component.moduleStyles
  let custom ← Stage.customCode cx component.customBlocks
  return {
    filename := cx.file, esm := cx.settings.esm, isFunctional := component.isFunctional
    script, template, styles, custom }

/-- Makes a module of the text of a component, with its styles processed by a stage. -/
def processWith (stage : StylesStage κ) (t : SingleFileTransformer κ) (files : Files)
    (source file : String) (settings : Settings) (pace : Pace) : Action κ Output := do
  let cx ← t.context files file settings pace
  let component := Component.parse source file
  say component.problemEvents
  say component.outlineEvents
  let (output, events) := (← partsWith stage cx component).assemble
  say events
  return output

theorem process_eq_processWith (t : SingleFileTransformer κ) (files : Files)
    (source file : String) (settings : Settings) (pace : Pace) :
    t.process files source file settings pace =
      t.processWith Stage.styleResults files source file settings pace := rfl

/-- The ways to make a module while compilers may wait: the styles go on in rounds, or in any other
order of their steps. -/
inductive Suspends (t : SingleFileTransformer κ) (files : Files) (source file : String)
    (settings : Settings) : Action κ Output → Prop
  | rounds : Suspends t files source file settings (t.process files source file settings .suspending)
  | ordered (stage : StylesStage κ) (h : stage.Ordered) :
      Suspends t files source file settings
        (t.processWith stage files source file settings .suspending)

/-! ### Failures -/

/-- The failures of the stages that make the parts of a module, and of its styles. -/
inductive PartFault (cx : Context κ) (component : Component) : TransformFault → Prop
  | body {e : TransformFault} (h : (Stage.body cx component).Gives (.error e)) :
      PartFault cx component e
  | template {template : TemplateBlock} {script : Option Fragment} {bindings : Option Json}
      {e : TransformFault} (htemplate : component.template = some template)
      (hbody : (Stage.body cx component).Gives (.ok (script, bindings)))
      (h : (Stage.render cx template bindings).Gives (.error e)) : PartFault cx component e
  | style {style : StyleBlock} {e : TransformFault} (hstyle : style ∈ component.moduleStyles)
      (h : (Stage.styleResult cx style).Gives (.error e)) : PartFault cx component e
  | custom {e : TransformFault}
      (h : (Stage.customCode cx component.customBlocks).Gives (.error e)) :
      PartFault cx component e

/-- The failures that a transformation can end with. -/
def Produces (t : SingleFileTransformer κ) (files : Files) (source file : String)
    (settings : Settings) (pace : Pace) (e : TransformFault) : Prop :=
  (t.context files file settings pace).Gives (.error e) ∨
    ∃ cx, (t.context files file settings pace).Gives (.ok cx) ∧
      PartFault cx (Component.parse source file) e

section Stages

variable {alike : HookInput → HookInput → Prop} {base : Context κ} {stage stage' : StylesStage κ}
  {p q : Pace}

/-- The outcomes of the styles, at two paces. -/
theorem exists_gives_styleResults (h : base.SteadyAt alike p q) (styles : List StyleBlock) :
    ∃ os, List.Forall₂ Gives os (styles.map (Stage.styleResult (base.paced p))) ∧
      List.Forall₂ Gives os (styles.map (Stage.styleResult (base.paced q))) := by
  induction styles with
  | nil => exact ⟨[], .nil, .nil⟩
  | cons style styles ih =>
    obtain ⟨o, hp, hq⟩ := (Stage.agree_styleResult h style : Agree Eq
      (Stage.styleResult (base.paced p) style) (Stage.styleResult (base.paced q) style)).eq_gives
    obtain ⟨os, hps, hqs⟩ := ih
    exact ⟨o :: os, .cons hp hps, .cons hq hqs⟩

/-- Stages that process the styles in any two orders succeed with the same results, or both fail. -/
theorem meet_styles (h : base.SteadyAt alike p q) (hstage : stage.Ordered) (hstage' : stage'.Ordered)
    (styles : List StyleBlock) :
    Meet (fun rs rs' => rs = rs' ∧
        List.Forall₂ Gives (rs.map .ok) (styles.map (Stage.styleResult (base.paced q))))
      (stage (base.paced p) styles) (stage' (base.paced q) styles) := by
  obtain ⟨os, hp, hq⟩ := exists_gives_styleResults h styles
  have hleft := (hstage (base.paced p) styles).ends hp
  have hright := (hstage' (base.paced q) styles).ends hq
  by_cases hok : ∃ rs : List StyleResult, os = rs.map .ok
  · obtain ⟨rs, rfl⟩ := hok
    refine .inl ⟨rs, rs, ⟨rfl, hq⟩, ?_, ?_⟩
    · exact hleft.mono fun o ho => (ho.1 rs).2 rfl
    · exact hright.mono fun o ho => (ho.1 rs).2 rfl
  · have hfails {o : Except TransformFault (List StyleResult)}
        (ho : ∀ as, o = .ok as ↔ os = as.map .ok) : o.isOk = false := by
      cases o with
      | ok as => exact absurd ⟨as, (ho as).1 rfl⟩ hok
      | error e => rfl
    exact .inr ⟨hleft.mono fun o ho => hfails ho.1, hright.mono fun o ho => hfails ho.1⟩

theorem failsAs_styles (h : base.SteadyAt alike q q) (hstage : stage.Ordered) (styles : List StyleBlock) :
    (stage (base.paced q) styles).FailsAs fun e =>
      ∃ style ∈ styles, (Stage.styleResult (base.paced q) style).Gives (.error e) := by
  obtain ⟨os, -, hq⟩ := exists_gives_styleResults h styles
  refine ((hstage (base.paced q) styles).ends hq).mono ?_
  rintro o ⟨-, ho⟩ e he
  have hmem := ho e he
  rw [List.forall₂_map_right_iff] at hq
  obtain ⟨style, hstyle, hgives⟩ := exists_of_mem_forall₂ hq hmem
  exact ⟨style, hstyle, hgives⟩

theorem meet_partsWith (h : base.SteadyAt alike p q) (hstage : stage.Ordered) (hstage' : stage'.Ordered)
    (component : Component) :
    Meet (fun a a' => a = a' ∧ a.isFunctional = component.isFunctional ∧
        List.Forall₂ Gives (a.styles.map .ok)
          (component.moduleStyles.map (Stage.styleResult (base.paced q))))
      (partsWith stage (base.paced p) component) (partsWith stage' (base.paced q) component) := by
  have hrest (script template : Option Fragment) :
      Meet (fun a a' => a = a' ∧ a.isFunctional = component.isFunctional ∧
          List.Forall₂ Gives (a.styles.map .ok)
            (component.moduleStyles.map (Stage.styleResult (base.paced q))))
        (do
          let styles ← stage (base.paced p) component.moduleStyles
          let custom ← Stage.customCode (base.paced p) component.customBlocks
          pure {
            filename := base.file, esm := base.settings.esm, isFunctional := component.isFunctional
            script, template, styles, custom } : Action κ Assembly)
        (do
          let styles ← stage' (base.paced q) component.moduleStyles
          let custom ← Stage.customCode (base.paced q) component.customBlocks
          pure {
            filename := base.file, esm := base.settings.esm, isFunctional := component.isFunctional
            script, template, styles, custom } : Action κ Assembly) := by
    refine meet_bind (meet_styles h hstage hstage' _) ?_
    rintro styles _ ⟨rfl, hstyles⟩ -
    refine meet_bind (Stage.agree_customCode h _).meet ?_
    rintro custom _ rfl -
    exact (agree_done ⟨rfl, rfl, hstyles⟩).meet
  refine meet_bind (Stage.agree_body h component).meet ?_
  rintro ⟨script, bindings⟩ _ rfl -
  cases component.template with
  | none => exact hrest script none
  | some template =>
    refine meet_bind (Stage.agree_render h template bindings).meet ?_
    rintro made _ rfl -
    exact hrest script (some made)

theorem failsAs_partsWith (h : base.SteadyAt alike q q) (hstage : stage.Ordered) (component : Component) :
    (partsWith stage (base.paced q) component).FailsAs (PartFault (base.paced q) component) := by
  have hrest (script template : Option Fragment) :
      FailsAs (PartFault (base.paced q) component) (do
        let styles ← stage (base.paced q) component.moduleStyles
        let custom ← Stage.customCode (base.paced q) component.customBlocks
        pure {
          filename := base.file, esm := base.settings.esm, isFunctional := component.isFunctional
          script, template, styles, custom } : Action κ Assembly) := by
    apply (failsAs_styles h hstage component.moduleStyles).bind
    · rintro styles -
      obtain ⟨o, hcustom⟩ := (Stage.agree_customCode h component.customBlocks :
        Agree Eq (Stage.customCode (base.paced q) _) (Stage.customCode (base.paced q) _)).exists_gives
      refine hcustom.bind_failsAs ?_ fun e he => .custom he
      rintro custom - e ⟨⟩
    · rintro e he e' ⟨⟩
      obtain ⟨style, hstyle, hgives⟩ := he e rfl
      exact .style hstyle hgives
  obtain ⟨o, hbody⟩ := (Stage.agree_body h component :
    Agree Eq (Stage.body (base.paced q) _) (Stage.body (base.paced q) _)).exists_gives
  refine hbody.bind_failsAs ?_ fun e he => .body he
  rintro ⟨script, bindings⟩ hbody
  cases htemplate : component.template with
  | none => exact hrest script none
  | some template =>
    obtain ⟨o, hrender⟩ := (Stage.agree_render h template bindings :
      Agree Eq (Stage.render (base.paced q) _ _) (Stage.render (base.paced q) _ _)).exists_gives
    refine hrender.bind_failsAs ?_ fun e he => .template htemplate hbody he
    rintro made -
    exact hrest script (some made)

theorem gives_say (events : List Event) : (say events : Action κ Unit).Gives (.ok ()) :=
  Gives.bind_ok (Stage.gives_forIn_log events id) (gives_done ())

end Stages

variable {t : SingleFileTransformer κ} {files : Files} {source file : String} {settings : Settings}
  {stage stage' : StylesStage κ} {alike : HookInput → HookInput → Prop}

/-- Whether a style is registered as this: under the name of its module, with its own value. -/
def Registered (cx : Context κ) (style : StyleBlock) (result : StyleResult) : Prop :=
  result.name = style.moduleName.getD Stage.defaultModule ∧
    (Stage.styleResult cx style).Gives (.ok result)

/-- Whether a module registers all styles of a component that have a module, in the order of the
file. -/
def RegistersInOrder (cx : Context κ) (component : Component) (output : Output) : Prop :=
  ∃ results : List StyleResult,
    List.Forall₂ (Registered cx) component.moduleStyles results ∧
    (results ≠ [] →
      (Assembly.styleBlock component.isFunctional results).toList <:+: output.code.toList)

theorem registered_of_gives [Nonempty (Session κ)] {cx : Context κ} {style : StyleBlock}
    {result : StyleResult} (h : (Stage.styleResult cx style).Gives (.ok result)) :
    Registered cx style result := by
  have hname : (Stage.styleResult cx style).Ends fun o => ∀ r, o = .ok r →
      r.name = style.moduleName.getD Stage.defaultModule := by
    apply (ends_true (Stage.styleValue cx style)).bind
    · rintro value - r ⟨⟩
      rfl
    · rintro e - r ⟨⟩
  exact ⟨h.of_ends hname result rfl, h⟩

theorem meet_processWith [Nonempty (Session κ)] {p q : Pace} (ht : t.SteadyAt alike p q)
    (hstage : stage.Ordered) (hstage' : stage'.Ordered) :
    Meet (fun output output' => output = output' ∧ ∃ cx,
        (t.context files file settings q).Gives (.ok cx) ∧
        RegistersInOrder cx (Component.parse source file) output)
      (t.processWith stage files source file settings p)
      (t.processWith stage' files source file settings q) := by
  rcases agree_context ht files file settings with
    ⟨cx, cx', ⟨base, hbase, -, -, -, rfl, rfl⟩, hp, hq⟩ | ⟨e, hp, hq⟩
  · have hcontext : Meet (fun cx cx' => cx = base.paced p ∧ cx' = base.paced q)
        (t.context files file settings p) (t.context files file settings q) :=
      .inl ⟨_, _, ⟨rfl, rfl⟩, hp, hq⟩
    refine meet_bind hcontext ?_
    rintro _ _ ⟨rfl, rfl⟩ -
    refine meet_bind (gives_say _).agree.meet ?_
    rintro _ _ rfl -
    refine meet_bind (gives_say _).agree.meet ?_
    rintro _ _ rfl -
    refine meet_bind (meet_partsWith hbase hstage hstage' _) ?_
    rintro a _ ⟨rfl, hfunctional, hstyles⟩ -
    refine meet_bind (gives_say _).agree.meet ?_
    rintro _ _ rfl -
    refine (agree_done ⟨rfl, base.paced q, hq, a.styles, ?_, ?_⟩).meet
    · rw [List.forall₂_map_left_iff, List.forall₂_map_right_iff] at hstyles
      exact (hstyles.imp fun result style h => registered_of_gives h).flip
    · intro hne
      rw [← hfunctional]
      exact Assembly.infix_styleBlock hne
  · exact Agree.meet (.inr ⟨e, hp.bind_error, hq.bind_error⟩)

theorem failsAs_processWith {pace : Pace} (ht : t.SteadyAt alike pace pace)
    (hstage : stage.Ordered) :
    (t.processWith stage files source file settings pace).FailsAs
      (t.Produces files source file settings pace) := by
  rcases agree_context ht files file settings with
    ⟨cx, _, ⟨base, hbase, -, -, -, rfl, -⟩, hcx, -⟩ | ⟨e, he, -⟩
  · refine hcx.bind_ok ?_
    refine (gives_say _).bind_ok ?_
    refine (gives_say _).bind_ok ?_
    apply (failsAs_partsWith hbase hstage (Component.parse source file)).bind
    · rintro a -
      refine (gives_say _).bind_ok ?_
      rintro e ⟨⟩
    · rintro e he e' ⟨⟩
      exact .inr ⟨_, hcx, he e rfl⟩
  · apply (Gives.bind_error he).mono
    rintro _ rfl e' ⟨⟩
    exact .inl he

/-- Where both ways of each compiler and transformer give one result, the two paces agree: the
suspending one succeeds, in whatever order its styles go on, just if the blocking one does, with the
same code and the same map.  The styles are then registered in the order of the file, and where it
fails the failure is that of some stage or of some style. -/
theorem run_suspends (ht : t.Steady Eq) {run : Action κ Output}
    (hrun : t.Suspends files source file settings run) (s s' : Session κ) :
    (∀ output, (run.run s').1 = .ok output ↔
      ((t.process files source file settings .blocking).run s).1 = .ok output) ∧
    (∀ output, (run.run s').1 = .ok output → ∃ cx,
      (t.context files file settings .suspending).Gives (.ok cx) ∧
      RegistersInOrder cx (Component.parse source file) output) ∧
    ∀ e, (run.run s').1 = .error e → t.Produces files source file settings .suspending e := by
  obtain ⟨stage, hstage, rfl⟩ : ∃ stage : StylesStage κ, stage.Ordered ∧
      run = t.processWith stage files source file settings .suspending := by
    cases hrun with
    | rounds => exact ⟨_, ordered_styleResults, rfl⟩
    | ordered stage hstage => exact ⟨stage, hstage, rfl⟩
  have hsession : Nonempty (Session κ) := ⟨s⟩
  have hmeet := (meet_processWith (ht.steadyAt .blocking .suspending) ordered_styleResults hstage :
    Meet _ (t.process files source file settings .blocking) _).run s s'
  have hfails := (failsAs_processWith (ht.steadyAt .suspending .suspending) hstage :
    FailsAs _ (t.processWith stage files source file settings .suspending)).run s'
  rcases hmeet with ⟨output, _, ⟨rfl, hcx⟩, hp, hq⟩ | ⟨e, e', hp, hq⟩
  · refine ⟨?_, ?_, hfails⟩
    · intro output'
      rw [process_eq_processWith, hp, hq]
    · intro output' houtput
      obtain rfl := Except.ok.inj (hq.symm.trans houtput)
      exact hcx
  · refine ⟨?_, ?_, hfails⟩
    · intro output'
      rw [process_eq_processWith, hp, hq]
      simp
    · intro output' houtput
      rw [hq] at houtput
      cases houtput

end SingleFileTransformer

/-! ### Styles that wait -/

/-- A component with two styles, one of them in a language of its own. -/
def waitingSource : String :=
  "<style module=\"first\">.a \x7b \x7d</style>\n" ++
  "<style module=\"second\" lang=\"late\">.b \x7b \x7d</style>\n"

def waitingFile : String := "/app/Waiting.vue"

/-- A compiler of styles that waits twice if it may. -/
def waitingCompiler : Compiler Unit StyleRequest StyleOutput where
  blocking r := .done ⟨r.source, []⟩
  suspending r := do
    pause 2
    return ⟨r.source, []⟩

/-- A transformer that has only the hook that may wait. -/
def lateTransformer : Transformer Unit :=
  { Transformer.bare { processAsync := true } with
    processAsync := fun _ => do
      pause 1
      return .text ".c \x7b \x7d" }

def waitingTransformer : SingleFileTransformer Unit where
  compilers := { style := waitingCompiler }
  supplied := [("late", lateTransformer)]

theorem steady_waitingTransformer : waitingTransformer.Steady Eq where
  compilers :=
    { Compilers.steady_builtIn with style := fun r => ⟨.ok ⟨r.source, []⟩, rfl, rfl⟩ }
  catalog := by
    rintro name u ⟨⟩
  supplied := by
    intro e he
    obtain rfl := List.mem_singleton.1 he
    refine ⟨?_, ⟨fun _ => .ok (.text ".c \x7b \x7d"), ?_, ?_⟩, ?_⟩
    · intro h
      cases h
    · intro i i' h
      rfl
    · intro i
      refine ⟨?_, fun _ => rfl⟩
      intro h
      cases h
    · intro h
      cases h

theorem run_suspends_waitingSource :
    waitingTransformer.Steady Eq ∧ ∃ output,
      ((waitingTransformer.process {} waitingSource waitingFile {} .suspending).run ⟨[], ()⟩).1 =
        .ok output ∧
      ((waitingTransformer.process {} waitingSource waitingFile {} .blocking).run ⟨[], ()⟩).1 =
        .ok output ∧
      ∃ cx, (waitingTransformer.context {} waitingFile {} .suspending).Gives (.ok cx) ∧
        SingleFileTransformer.RegistersInOrder cx (Component.parse waitingSource waitingFile)
          output := by
  have hrun : ((waitingTransformer.process {} waitingSource waitingFile {} .suspending).run
      ⟨[], ()⟩).1.toOption.any (fun _ => true) = true := by
    decide +kernel
  obtain ⟨output, s', hrun, -⟩ := Routine.exists_run_of_any hrun
  obtain ⟨hiff, horder, -⟩ := SingleFileTransformer.run_suspends steady_waitingTransformer .rounds
    ⟨[], ()⟩ ⟨[], ()⟩
  have hok := congrArg Prod.fst hrun
  exact ⟨steady_waitingTransformer, output, hok, (hiff output).1 hok, horder output hok⟩

end SingleFile
