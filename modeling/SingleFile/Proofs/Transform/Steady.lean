import SingleFile.Proofs.Routine.Interleaving
import SingleFile.Transform

/-!
# Steady compilers and transformers

A compiler is steady if both of its ways to answer give the same result, which depends on nothing
but the request.  To compare the stages of a transformation at two paces, which may be one pace, it
is enough that what they use gives one result at these two (`SteadyAt`).  Transformers may be asked
about inputs that are merely alike; a relation on inputs says which these are.
-/

namespace SingleFile

open Routine

variable {κ ρ α : Type} {alike : HookInput → HookInput → Prop} {p q : Pace}

/-! ### Compilers -/

/-- Whether both ways of a compiler give one result for each request, whatever the state. -/
def Compiler.Steady (c : Compiler κ ρ α) : Prop :=
  ∀ r, ∃ o, (c.blocking r).Gives o ∧ (c.suspending r).Gives o

/-- Whether a compiler gives one result for each request at two paces, whatever the state. -/
def Compiler.SteadyAt (p q : Pace) (c : Compiler κ ρ α) : Prop :=
  ∀ r, ∃ o, (c.compile p r).Gives o ∧ (c.compile q r).Gives o

theorem Compiler.Steady.steadyAt {c : Compiler κ ρ α} (h : c.Steady) (p q : Pace) :
    c.SteadyAt p q := by
  intro r
  obtain ⟨o, hblocking, hsuspending⟩ := h r
  have hgives (pace : Pace) : (c.compile pace r).Gives o := by
    cases pace with
    | blocking => exact hblocking
    | suspending => exact hsuspending
  exact ⟨o, hgives p, hgives q⟩

structure Compilers.Each (holds : ∀ {ρ α : Type}, Compiler κ ρ α → Prop) (c : Compilers κ) :
    Prop where
  script : holds c.script
  typeScript : ∀ d ∈ c.typeScript, holds d
  setup : ∀ d ∈ c.setup, holds d
  template : ∀ d ∈ c.template, holds d
  style : holds c.style

theorem Compilers.Each.mono {P Q : ∀ {ρ α : Type}, Compiler κ ρ α → Prop} {c : Compilers κ}
    (h : c.Each P) (hPQ : ∀ {ρ α : Type} (d : Compiler κ ρ α), P d → Q d) : c.Each Q where
  script := hPQ _ h.script
  typeScript d hd := hPQ d (h.typeScript d hd)
  setup d hd := hPQ d (h.setup d hd)
  template d hd := hPQ d (h.template d hd)
  style := hPQ _ h.style

/-- A compiler that never waits is steady if it gives one result for each request. -/
theorem Compiler.steady_ofBlocking {blocking : ρ → Work κ α}
    (h : ∀ r, ∃ o, (blocking r).Gives o) : (Compiler.ofBlocking blocking).Steady := by
  intro r
  obtain ⟨o, ho⟩ := h r
  exact ⟨o, ho, ho⟩

theorem Compiler.steady_script : (Compiler.script : Compiler κ ScriptRequest Fragment).Steady := by
  apply steady_ofBlocking
  intro r
  dsimp only
  split
  · exact ⟨_, gives_done _⟩
  · exact ⟨_, gives_fail _⟩

theorem Compiler.steady_style : (Compiler.style : Compiler κ StyleRequest StyleOutput).Steady :=
  steady_ofBlocking fun _ => ⟨_, gives_done _⟩

/-- The compilers that need no supply are steady. -/
theorem Compilers.steady_builtIn : (Compilers.builtIn : Compilers κ).Each Compiler.Steady where
  script := Compiler.steady_script
  typeScript := by
    rintro d ⟨⟩
  setup := by
    rintro d ⟨⟩
  template := by
    rintro d ⟨⟩
  style := Compiler.steady_style

/-! ### Transformers -/

namespace Transformer

/-- Whether the hook that may not wait is called at some pace: it is there, or none is. -/
def usesProcess (t : Transformer κ) : Bool := t.hooks.process || !t.hooks.processAsync

/-- Whether the hook that may wait is called at some pace: it is there, or none is. -/
def usesProcessAsync (t : Transformer κ) : Bool := t.hooks.processAsync || !t.hooks.process

/-- Whether a transformer gives one result for each input, whatever the state.  Where both ways to
process are used they give the same, and for inputs that are alike too. -/
structure Steady (alike : HookInput → HookInput → Prop) (t : Transformer κ) : Prop where
  preprocess : t.hooks.preprocess = true → ∀ text, ∃ o, (t.preprocess text).Gives o
  process : ∃ result : HookInput → Except CompilerFault HookOutput,
    (∀ i i', alike i i' → result i = result i') ∧ ∀ i,
      (t.usesProcess = true → (t.process i).Gives (result i)) ∧
      (t.usesProcessAsync = true → (t.processAsync i).Gives (result i))
  postprocess : t.hooks.postprocess = true → ∀ text, ∃ o, (t.postprocess text).Gives o

/-- Whether a transformer gives one result for each input at two paces, whatever the state, and the
same for inputs that are alike. -/
structure SteadyAt (alike : HookInput → HookInput → Prop) (p q : Pace) (t : Transformer κ) :
    Prop where
  preprocess : t.hooks.preprocess = true → ∀ text, ∃ o, (t.preprocess text).Gives o
  process : ∃ result : HookInput → Except CompilerFault HookOutput,
    (∀ i i', alike i i' → result i = result i') ∧
    ∀ i, (t.processAt p i).Gives (result i) ∧ (t.processAt q i).Gives (result i)
  postprocess : t.hooks.postprocess = true → ∀ text, ∃ o, (t.postprocess text).Gives o

/-- At each pace a steady transformer calls a hook that gives the result. -/
theorem Steady.steadyAt {t : Transformer κ} (h : t.Steady alike) (p q : Pace) :
    t.SteadyAt alike p q where
  preprocess := h.preprocess
  process := by
    obtain ⟨result, halike, hresult⟩ := h.process
    have hgives (pace : Pace) (i : HookInput) : (t.processAt pace i).Gives (result i) := by
      obtain ⟨hprocess, hasync⟩ := hresult i
      unfold usesProcess at hprocess
      unfold usesProcessAsync at hasync
      unfold processAt
      cases pace with
      | blocking =>
        cases hhook : t.hooks.process with
        | true => exact hprocess (by rw [hhook]; rfl)
        | false => exact hasync (by rw [hhook, Bool.not_false, Bool.or_true])
      | suspending =>
        cases hhook : t.hooks.processAsync with
        | true => exact hasync (by rw [hhook]; rfl)
        | false => exact hprocess (by rw [hhook, Bool.not_false, Bool.or_true])
    exact ⟨result, halike, fun i => ⟨hgives p i, hgives q i⟩⟩
  postprocess := h.postprocess

/-- Whether something holds of what a transformer is replaced by when it is registered. -/
def Provides (holds : Transformer κ → Prop) (t : Transformer κ) : Prop :=
  if t.hooks.create then ∃ o, t.create.Gives o ∧ ∀ u, o = .ok u → holds u else holds t

theorem Provides.mono {P Q : Transformer κ → Prop} {t : Transformer κ} (h : t.Provides P)
    (hPQ : ∀ u, P u → Q u) : t.Provides Q := by
  unfold Provides at h ⊢
  split
  · next hcreate =>
    rw [if_pos hcreate] at h
    obtain ⟨o, ho, hu⟩ := h
    exact ⟨o, ho, fun u hok => hPQ u (hu u hok)⟩
  · next hcreate =>
    rw [if_neg hcreate] at h
    exact hPQ t h

end Transformer

/-! ### Transformations -/

namespace SingleFileTransformer

/-- Whether something holds of each compiler and something of each transformer that a transformation
uses. -/
structure Each (compiler : ∀ {ρ α : Type}, Compiler κ ρ α → Prop) (transformer : Transformer κ → Prop)
    (t : SingleFileTransformer κ) : Prop where
  compilers : t.compilers.Each compiler
  catalog : ∀ name, ∀ u ∈ t.catalog name, u.Provides transformer
  supplied : ∀ e ∈ t.supplied, e.2.Provides transformer

/-- Whether all that a transformation uses is steady. -/
abbrev Steady (alike : HookInput → HookInput → Prop) (t : SingleFileTransformer κ) : Prop :=
  t.Each Compiler.Steady (Transformer.Steady alike)

/-- Whether all that a transformation uses is steady at two paces. -/
abbrev SteadyAt (alike : HookInput → HookInput → Prop) (p q : Pace) (t : SingleFileTransformer κ) :
    Prop :=
  t.Each (Compiler.SteadyAt p q) (Transformer.SteadyAt alike p q)

theorem Steady.steadyAt {t : SingleFileTransformer κ} (h : t.Steady alike) (p q : Pace) :
    t.SteadyAt alike p q where
  compilers := h.compilers.mono fun _ hc => hc.steadyAt p q
  catalog name u hu := (h.catalog name u hu).mono fun _ hu => hu.steadyAt p q
  supplied e he := (h.supplied e he).mono fun _ hu => hu.steadyAt p q

end SingleFileTransformer

def Registry.Each (holds : Transformer κ → Prop) (registry : Registry κ) : Prop :=
  ∀ e ∈ registry.entries, holds e.2

namespace Context

def paced (cx : Context κ) (pace : Pace) : Context κ := { cx with pace }

@[simp] theorem paced_registry (cx : Context κ) (pace : Pace) :
    (cx.paced pace).registry = cx.registry := rfl

@[simp] theorem paced_compilers (cx : Context κ) (pace : Pace) :
    (cx.paced pace).compilers = cx.compilers := rfl

/-- Whether all that the stages use is steady at two paces. -/
structure SteadyAt (alike : HookInput → HookInput → Prop) (p q : Pace) (cx : Context κ) : Prop where
  compilers : cx.compilers.Each (Compiler.SteadyAt p q)
  registry : cx.registry.Each (Transformer.SteadyAt alike p q)

theorem SteadyAt.transformer {cx : Context κ} (h : cx.SteadyAt alike p q) {lang : String}
    {t : Transformer κ} (ht : cx.registry.find? lang = some t) : t.SteadyAt alike p q := by
  obtain ⟨e, he, rfl⟩ := Option.map_eq_some_iff.1 ht
  exact h.registry e (List.mem_of_find?_eq_some he)

variable {cx : Context κ}

theorem agree_process {t : Transformer κ} (h : t.SteadyAt alike p q) {i i' : HookInput}
    (hi : i = i' ∨ alike i i') :
    Agree Eq ((cx.paced p).process t i) ((cx.paced q).process t i') := by
  obtain ⟨result, halike, hgives⟩ := h.process
  have heq : result i = result i' := by
    rcases hi with rfl | hi
    · rfl
    · exact halike i i' hi
  have hleft := (hgives i).1
  rw [heq] at hleft
  exact agree_mapError (agree_of_gives hleft (hgives i').2)

theorem agree_compile {c : Compiler κ ρ α} (h : c.SteadyAt p q) (r : ρ) :
    Agree Eq ((cx.paced p).compile c r) ((cx.paced q).compile c r) := by
  obtain ⟨o, hp, hq⟩ := h r
  exact agree_mapError (agree_of_gives hp hq)

end Context

/-! ### Registering -/

namespace Registry

variable {registry : Registry κ} {t : Transformer κ} {holds : Transformer κ → Prop}

/-- A transformer is registered in one way, or refused. -/
theorem agree_register (hregistry : registry.Each holds) (ht : t.Provides holds) (text : String) :
    Agree (fun r r' => r = r' ∧ r.Each holds) (registry.register text t)
      (registry.register text t) := by
  have hadd {pattern : Pattern} {u : Transformer κ} (hu : holds u) :
      Registry.Each holds ⟨registry.entries ++ [(pattern, u)]⟩ := by
    intro e he
    rcases List.mem_append.1 he with he | he
    · exact hregistry e he
    · rw [List.mem_singleton.1 he]
      exact hu
  unfold register
  split
  · exact agree_fail _
  · split
    · exact agree_fail _
    · unfold Transformer.Provides at ht
      split
      · next hcreate =>
        rw [if_pos hcreate] at ht
        obtain ⟨o, ho, hu⟩ := ht
        have hact : (Work.act t.create).Gives (o.mapError .compiler) := gives_mapError ho
        cases o with
        | error e => exact .inr ⟨_, hact.bind_error, hact.bind_error⟩
        | ok u => exact .inl ⟨_, _, ⟨rfl, hadd (hu u rfl)⟩, hact.bind_ok rfl, hact.bind_ok rfl⟩
      · next hcreate =>
        rw [if_neg hcreate] at ht
        exact agree_done ⟨rfl, hadd ht⟩

theorem agree_registerNamed {catalog : String → Option (Transformer κ)}
    (hcatalog : ∀ name, ∀ u ∈ catalog name, u.Provides holds) (named : List (String × String))
    (hregistry : registry.Each holds) :
    Agree (fun r r' => r = r' ∧ r.Each holds) (registerNamed catalog named registry)
      (registerNamed catalog named registry) := by
  induction named generalizing registry with
  | nil => exact agree_done ⟨rfl, hregistry⟩
  | cons entry rest ih =>
    unfold registerNamed
    split
    · exact agree_fail _
    · next u hu =>
      refine agree_bind (agree_register hregistry (hcatalog _ u hu) _) ?_
      rintro r _ ⟨rfl, hr⟩ -
      exact ih hr

theorem agree_registerSupplied {supplied : List (String × Transformer κ)}
    (hsupplied : ∀ e ∈ supplied, e.2.Provides holds) (hregistry : registry.Each holds) :
    Agree (fun r r' => r = r' ∧ r.Each holds) (registerSupplied supplied registry)
      (registerSupplied supplied registry) := by
  induction supplied generalizing registry with
  | nil => exact agree_done ⟨rfl, hregistry⟩
  | cons entry rest ih =>
    refine agree_bind (agree_register hregistry (hsupplied entry List.mem_cons_self) _) ?_
    rintro r _ ⟨rfl, hr⟩ -
    exact ih (fun e he => hsupplied e (List.mem_cons_of_mem _ he)) hr

theorem agree_ofOptions {t : SingleFileTransformer κ}
    {compiler : ∀ {ρ α : Type}, Compiler κ ρ α → Prop} (ht : t.Each compiler holds)
    (options : Options) :
    Agree (fun r r' => r = r' ∧ r.Each holds) (ofOptions options t.catalog t.supplied)
      (ofOptions options t.catalog t.supplied) := by
  refine agree_bind (agree_registerNamed ht.catalog options.transform ?_) ?_
  · intro e he
    cases he
  · rintro r _ ⟨rfl, hr⟩ -
    exact agree_registerSupplied ht.supplied hr

end Registry

/-- At two paces the context is the same but for the pace. -/
theorem SingleFileTransformer.agree_context {t : SingleFileTransformer κ} (ht : t.SteadyAt alike p q)
    (files : Files) (file : String) (settings : Settings) :
    Agree (fun cx cx' => ∃ base : Context κ, base.SteadyAt alike p q ∧ base.files = files ∧
        base.file = file ∧ base.settings = settings ∧ cx = base.paced p ∧ cx' = base.paced q)
      (t.context files file settings p) (t.context files file settings q) := by
  refine agree_bind (gives_ofExcept _).agree ?_
  rintro options _ rfl -
  refine agree_bind (Registry.agree_ofOptions ht options) ?_
  rintro registry _ ⟨rfl, hregistry⟩ -
  refine agree_bind (gives_ofExcept _).agree ?_
  rintro nameMap _ rfl -
  refine agree_done ⟨{ file, settings, options, registry, nameMap, files
                       compilers := t.compilers, pace := p }, ?_, rfl, rfl, rfl, rfl, rfl⟩
  exact ⟨ht.compilers, hregistry⟩

end SingleFile
