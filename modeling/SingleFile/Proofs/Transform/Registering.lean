import SingleFile.Proofs.Transform.Run

/-!
# What gets into the registry

`Comes` says what comes of a call that registers a transformer: an entry, or a fault.  `Calls` goes
through a list of calls.  Those that succeed are the entries in order, and a call that fails leaves the
registry as it was.  The options come before what is supplied, and with them the first fault ends all.

The hooks are looked at before a factory makes the transformer that is stored.  So the registry has a
transformer without hooks as soon as a factory makes one (`register_exact`).
-/

namespace SingleFile

variable {κ : Type}

/-- A call that registers a transformer for a pattern.  In place of the transformer there may be a name
that the catalog does not have. -/
structure Call (κ : Type) where
  pattern : String
  transformer : Except String (Transformer κ)

/-- What a call stores, or why it fails. -/
abbrev Stored (κ : Type) := Except TransformFault (Pattern × Transformer κ)

def Call.isFactory (call : Call κ) : Bool := call.transformer.toOption.any (·.hooks.create)

/-- What comes of a call, run from a state. -/
inductive Comes : Session κ → Call κ → Stored κ → Session κ → Prop
  | unknown (s : Session κ) (text name : String) :
      Comes s ⟨text, .error name⟩ (.error (.settings (.unknownTransformer name text))) s
  | noPattern {s : Session κ} {text : String} {t : Transformer κ} (htext : Pattern.parse? text = none) :
      Comes s ⟨text, .ok t⟩ (.error (.settings (.transformPattern text))) s
  | noHooks {s : Session κ} {text : String} {t : Transformer κ} {pattern : Pattern}
      (htext : Pattern.parse? text = some pattern) (hooks : t.hooks.isEmpty = true) :
      Comes s ⟨text, .ok t⟩ (.error (.settings .noHooks)) s
  | given {s : Session κ} {text : String} {t : Transformer κ} {pattern : Pattern}
      (htext : Pattern.parse? text = some pattern) (hooks : t.hooks.isEmpty = false)
      (hcreate : t.hooks.create = false) : Comes s ⟨text, .ok t⟩ (.ok (pattern, t)) s
  | made {s s' : Session κ} {text : String} {t product : Transformer κ} {pattern : Pattern}
      (htext : Pattern.parse? text = some pattern) (hcreate : t.hooks.create = true)
      (hmade : t.create.run s = (.ok product, s')) : Comes s ⟨text, .ok t⟩ (.ok (pattern, product)) s'
  | notMade {s s' : Session κ} {text : String} {t : Transformer κ} {pattern : Pattern}
      {fault : CompilerFault} (htext : Pattern.parse? text = some pattern)
      (hcreate : t.hooks.create = true) (hmade : t.create.run s = (.error fault, s')) :
      Comes s ⟨text, .ok t⟩ (.error (.compiler fault)) s'

/-- What comes of calls one after the other. -/
inductive Calls : Session κ → List (Call κ) → List (Stored κ) → Session κ → Prop
  | nil (s : Session κ) : Calls s [] [] s
  | cons {s s₁ s' : Session κ} {call : Call κ} {calls : List (Call κ)}
      {result : Stored κ} {results : List (Stored κ)}
      (hcall : Comes s call result s₁) (h : Calls s₁ calls results s') :
      Calls s (call :: calls) (result :: results) s'

theorem Calls.append {s s₁ s' : Session κ} {calls calls' : List (Call κ)}
    {results results' : List (Stored κ)} (h : Calls s calls results s₁) (h' : Calls s₁ calls' results' s') :
    Calls s (calls ++ calls') (results ++ results') s' := by
  induction h with
  | nil s => exact h'
  | cons hcall _ ih => exact .cons hcall (ih h')

/-- Whether everything that factories have made has a hook. -/
def MakeHooks (calls : List (Call κ)) (results : List (Stored κ)) : Prop :=
  ∀ p ∈ calls.zip results, p.1.isFactory = true → ∀ e, p.2 = .ok e → e.2.hooks.isEmpty = false

namespace Registry

variable {registry : Registry κ} {s s' : Session κ}

/-- Whether all transformers in a registry have a hook. -/
def Hooked (registry : Registry κ) : Prop := ∀ e ∈ registry.entries, e.2.hooks.isEmpty = false

/-- The registry after a call. -/
def after (registry : Registry κ) (call : Call κ) : Action κ (Registry κ) :=
  match call.transformer with
  | .ok t => registry.register call.pattern t
  | .error name => .fail (.settings (.unknownTransformer name call.pattern))

/-- Calls one after the other, with what they answer.  Each is made on the registry that the ones before
have left, and one that fails leaves it. -/
def attempts (registry : Registry κ) :
    List (Call κ) → Action κ (List (Except TransformFault Unit) × Registry κ)
  | [] => pure ([], registry)
  | call :: calls => do
    let result ← (registry.after call).outcome
    let (answers, last) ← (result.toOption.getD registry).attempts calls
    return (result.map (fun _ => ()) :: answers, last)

/-- The calls that are made for some options: those that the options ask for, then the others. -/
def calls (options : Options) (catalog : String → Option (Transformer κ))
    (supplied : List (String × Transformer κ)) : List (Call κ) :=
  (options.transform.map fun e => ⟨e.1, (catalog e.2).elim (.error e.2) .ok⟩) ++
    supplied.map fun e => ⟨e.1, .ok e.2⟩

/-- The registry with what came of some calls. -/
def extended (registry : Registry κ) (results : List (Stored κ)) : Registry κ :=
  ⟨registry.entries ++ results.filterMap Except.toOption⟩

/-- **A call is registered as the last entry, or not at all.** -/
theorem exists_comes (registry : Registry κ) (call : Call κ) (s : Session κ) : ∃ result s',
    Comes s call result s' ∧
      (registry.after call).run s = (result.map fun e => ⟨registry.entries ++ [e]⟩, s') := by
  obtain ⟨text, transformer⟩ := call
  cases transformer with
  | error name => exact ⟨_, _, .unknown s text name, rfl⟩
  | ok t =>
    unfold after register
    dsimp only
    cases htext : Pattern.parse? text with
    | none => exact ⟨_, _, .noPattern htext, rfl⟩
    | some pattern =>
      cases hooks : t.hooks.isEmpty with
      | true => exact ⟨_, _, .noHooks htext hooks, rfl⟩
      | false =>
        cases hcreate : t.hooks.create with
        | false => exact ⟨_, _, .given htext hooks hcreate, rfl⟩
        | true =>
          have hrun : ((Work.act t.create >>= fun used =>
                Routine.done ⟨registry.entries ++ [(pattern, used)]⟩ : Action κ (Registry κ)).run s) =
              (((t.create.run s).1.mapError .compiler).map fun used =>
                ⟨registry.entries ++ [(pattern, used)]⟩, (t.create.run s).2) := by
            rw [Routine.run_bind, Work.act, Routine.run_mapError]
            cases (t.create.run s).1 <;> rfl
          cases hmade : t.create.run s with
          | mk made s' =>
            rw [hmade] at hrun
            cases made with
            | ok product => exact ⟨_, _, .made htext hcreate hmade, hrun⟩
            | error fault => exact ⟨_, _, .notMade htext hcreate hmade, hrun⟩

/-- Calls that are made one after the other. -/
theorem run_attempts (registry : Registry κ) (calls : List (Call κ)) (s : Session κ) :
    ∃ results s', Calls s calls results s' ∧ (registry.attempts calls).run s =
      (.ok (results.map (·.map fun _ => ()), registry.extended results), s') := by
  induction calls generalizing registry s with
  | nil =>
    refine ⟨[], s, .nil s, ?_⟩
    rw [extended, List.filterMap_nil, List.append_nil]
    rfl
  | cons call calls ih =>
    obtain ⟨result, s₁, hcomes, hrun⟩ := registry.exists_comes call s
    obtain ⟨results, s', hcalls, hrest⟩ :=
      ih ((result.map fun e => (⟨registry.entries ++ [e]⟩ : Registry κ)).toOption.getD registry) s₁
    refine ⟨result :: results, s', .cons hcomes hcalls, ?_⟩
    rw [attempts, Routine.run_bind, Routine.run_outcome, hrun]
    dsimp only
    rw [Routine.run_bind, hrest]
    cases result with
    | error fault => rfl
    | ok e =>
      have hentries : (⟨registry.entries ++ [e]⟩ : Registry κ).extended results =
          registry.extended (.ok e :: results) := by
        rw [extended, extended, List.append_assoc]
        rfl
      show ((Except.ok _, s') : Except TransformFault _ × Session κ) = _
      rw [← hentries]
      rfl

/-! ### Hooks -/

/-- What is stored as it was given has a hook. -/
theorem hooks_of_comes {call : Call κ} {e : Pattern × Transformer κ} (h : Comes s call (.ok e) s')
    (hcall : call.isFactory = false) : e.2.hooks.isEmpty = false := by
  cases h with
  | given _ hooks _ => exact hooks
  | made _ hcreate _ => exact absurd (hcreate.symm.trans hcall) (by decide)

/-- The hooks of what is stored are a matter of the factories. -/
theorem makeHooks_iff {calls : List (Call κ)} {results : List (Stored κ)}
    (h : Calls s calls results s') :
    MakeHooks calls results ↔ ∀ e ∈ results.filterMap Except.toOption, e.2.hooks.isEmpty = false := by
  induction h with
  | nil s => simp [MakeHooks]
  | @cons _ _ _ call calls result results hcall h ih =>
    have hcons : MakeHooks (call :: calls) (result :: results) ↔
        (call.isFactory = true → ∀ e, result = .ok e → e.2.hooks.isEmpty = false) ∧
          MakeHooks calls results := List.forall_mem_cons
    -- only a factory is in question: what is stored as it was given has a hook anyway
    have hfirst : (call.isFactory = true → ∀ e, result = .ok e → e.2.hooks.isEmpty = false) ↔
        ∀ e, result = .ok e → e.2.hooks.isEmpty = false := by
      cases hfactory : call.isFactory with
      | true => exact ⟨fun h => h rfl, fun h _ => h⟩
      | false => exact ⟨fun _ e he => hooks_of_comes (he ▸ hcall) hfactory, fun h _ => h⟩
    rw [hcons, hfirst, ih]
    cases result with
    | error fault => simp [Except.toOption]
    | ok e =>
      have hstored : (Except.ok e :: results).filterMap Except.toOption =
          e :: results.filterMap Except.toOption := rfl
      rw [hstored, List.forall_mem_cons]
      simp only [Except.ok.injEq, forall_eq']

/-! ### The registry for some options -/

/-- How calls end of which the first fault ends all. -/
inductive Stops (registry : Registry κ) (s : Session κ) (calls : List (Call κ)) :
    Except TransformFault (Registry κ) × Session κ → Prop
  | built {entries : List (Pattern × Transformer κ)} {s' : Session κ}
      (h : Calls s calls (entries.map .ok) s') :
      Stops registry s calls (.ok ⟨registry.entries ++ entries⟩, s')
  | failed {before behind : List (Call κ)} {call : Call κ} {fault : TransformFault}
      {entries : List (Pattern × Transformer κ)} {s₁ s' : Session κ}
      (hcalls : calls = before ++ call :: behind) (h : Calls s before (entries.map .ok) s₁)
      (hcall : Comes s₁ call (.error fault) s') : Stops registry s calls (.error fault, s')

theorem stops_after (registry : Registry κ) (call : Call κ) (s : Session κ) :
    Stops registry s [call] ((registry.after call).run s) := by
  obtain ⟨result, s', hcomes, hrun⟩ := registry.exists_comes call s
  rw [hrun]
  cases result with
  | ok e =>
    have hcalls : Calls s [call] ([e].map .ok) s' := .cons hcomes (.nil s')
    exact .built hcalls
  | error fault =>
    have hnone : Calls s ([] : List (Call κ)) ([].map .ok) s := .nil s
    exact .failed rfl hnone hcomes

/-- More calls on the registry that the first ones have built. -/
theorem Stops.bind {calls calls' : List (Call κ)} {p : Action κ (Registry κ)}
    {next : Registry κ → Action κ (Registry κ)} (hp : Stops registry s calls (p.run s))
    (hnext : ∀ registry s, Stops registry s calls' ((next registry).run s)) :
    Stops registry s (calls ++ calls') ((p >>= next).run s) := by
  rw [Routine.run_bind]
  generalize p.run s = out at hp
  cases hp with
  | @built entries s₁ h =>
    dsimp only
    have hrest := hnext ⟨registry.entries ++ entries⟩ s₁
    generalize (next ⟨registry.entries ++ entries⟩).run s₁ = out at hrest
    cases hrest with
    | @built entries' s' h' =>
      dsimp only
      rw [List.append_assoc]
      refine .built ?_
      rw [List.map_append]
      exact h.append h'
    | @failed before behind call fault entries' s₂ s' hcalls h' hcall =>
      have hbefore : Calls s (calls ++ before) ((entries ++ entries').map .ok) s₂ := by
        rw [List.map_append]
        exact h.append h'
      exact .failed (by rw [hcalls, List.append_assoc]) hbefore hcall
  | failed hcalls h hcall =>
    rw [hcalls, List.append_assoc, List.cons_append]
    exact .failed rfl h hcall

theorem stops_nil (registry : Registry κ) (s : Session κ) :
    Stops registry s [] ((pure registry : Action κ (Registry κ)).run s) := by
  have hnone : Calls s ([] : List (Call κ)) ([].map .ok) s := .nil s
  have h : Stops registry s [] (.ok ⟨registry.entries ++ []⟩, s) := .built hnone
  rw [List.append_nil] at h
  exact h

theorem stops_registerNamed (catalog : String → Option (Transformer κ)) (named : List (String × String))
    (registry : Registry κ) (s : Session κ) :
    Stops registry s (named.map fun e => ⟨e.1, (catalog e.2).elim (.error e.2) .ok⟩)
      ((registerNamed catalog named registry).run s) := by
  induction named generalizing registry s with
  | nil => exact stops_nil registry s
  | cons e named ih =>
    have hstep : registerNamed catalog (e :: named) registry =
        registry.after ⟨e.1, (catalog e.2).elim (.error e.2) .ok⟩ >>= registerNamed catalog named := by
      rw [registerNamed]
      cases catalog e.2 <;> rfl
    rw [hstep]
    exact (registry.stops_after _ s).bind ih

theorem stops_registerSupplied (supplied : List (String × Transformer κ)) (registry : Registry κ)
    (s : Session κ) : Stops registry s (supplied.map fun e => ⟨e.1, .ok e.2⟩)
      ((registerSupplied supplied registry).run s) := by
  induction supplied generalizing registry s with
  | nil => exact stops_nil registry s
  | cons e supplied ih => exact (registry.stops_after ⟨e.1, .ok e.2⟩ s).bind ih

/-- The options come first, then what is supplied. -/
theorem stops_ofOptions (options : Options) (catalog : String → Option (Transformer κ))
    (supplied : List (String × Transformer κ)) (s : Session κ) :
    Stops {} s (calls options catalog supplied) ((ofOptions options catalog supplied).run s) :=
  (stops_registerNamed catalog options.transform {} s).bind (stops_registerSupplied supplied)

/-- **What is registered, and when all of it has hooks.** -/
theorem register_exact (options : Options) (catalog : String → Option (Transformer κ))
    (supplied : List (String × Transformer κ)) (more : List (Call κ)) (s : Session κ) :
    (∃ (before behind : List (Call κ)) (call : Call κ) (entries : List (Pattern × Transformer κ))
        (fault : TransformFault) (s₁ s' : Session κ),
      calls options catalog supplied = before ++ call :: behind ∧
      Calls s before (entries.map .ok) s₁ ∧ Comes s₁ call (.error fault) s' ∧
      (ofOptions options catalog supplied).run s = (.error fault, s')) ∨
    ∃ (registry : Registry κ) (results : List (Stored κ))
        (s₁ s' : Session κ),
      (ofOptions options catalog supplied).run s = (.ok registry, s₁) ∧
      Calls s (calls options catalog supplied) (registry.entries.map .ok) s₁ ∧
      Calls s₁ more results s' ∧
      (registry.attempts more).run s₁ =
        (.ok (results.map (·.map fun _ => ()), registry.extended results), s') ∧
      ((registry.extended results).Hooked ↔
        MakeHooks (calls options catalog supplied ++ more) (registry.entries.map .ok ++ results)) := by
  have hstops := stops_ofOptions options catalog supplied s
  generalize (ofOptions options catalog supplied).run s = out at hstops
  cases hstops with
  | failed hcalls h hcall => exact .inl ⟨_, _, _, _, _, _, _, hcalls, h, hcall, rfl⟩
  | @built entries s₁ h =>
    obtain ⟨results, s', hmore, hrun⟩ := run_attempts ⟨[] ++ entries⟩ more s₁
    refine .inr ⟨⟨[] ++ entries⟩, results, s₁, s', rfl, h, hmore, hrun, ?_⟩
    refine Iff.trans ?_ (makeHooks_iff (h.append hmore)).symm
    have hstored : entries.filterMap (Except.toOption ∘ (.ok : _ → Except TransformFault _)) = entries :=
      List.filterMap_some
    rw [List.filterMap_append, List.filterMap_map, hstored]
    rfl

/-! ### A factory that makes nothing of use -/

/-- Makes a transformer that has no hook. -/
def emptyFactory : Transformer Unit :=
  { Transformer.bare { create := true } with create := .done (.bare {}) }

theorem not_hooked_emptyFactory : ∃ registry s',
    (attempts {} [⟨"^docs$", .ok emptyFactory⟩]).run ⟨[], ()⟩ = (.ok ([.ok ()], registry), s') ∧
      ¬ registry.Hooked := by
  have hpattern : (Pattern.parse? "^docs$").isSome = true := by decide +kernel
  obtain ⟨pattern, hpattern⟩ := Option.isSome_iff_exists.1 hpattern
  refine ⟨⟨[(pattern, .bare {})]⟩, ⟨[], ()⟩, ?_, ?_⟩
  · have hafter : after {} ⟨"^docs$", .ok emptyFactory⟩ =
        (Routine.done ⟨[(pattern, .bare {})]⟩ : Action Unit (Registry Unit)) := by
      simp only [after, register, hpattern]
      rfl
    rw [attempts, hafter]
    rfl
  · intro h
    have hooks : ({} : Hooks).isEmpty = false := h _ List.mem_cons_self
    exact absurd hooks (by decide)

end Registry

end SingleFile
