import SingleFile.Proofs.Component.Attributes
import SingleFile.Proofs.Json.Merge
import SingleFile.Proofs.Transform.Requests

/-!
# Keys of requests

A command gets a request as a document, and it cannot tell which of two fields with one key is meant.
The fields that a request has of its own differ, and what the options and the compilers give is sorted.
So a key can stand twice in two places only: where the options are laid over a request as fields of
their own, and where a block has an attribute twice.  `Request.Clear` says that neither is so, and
`onlyAsks_uniqueKeys_iff` that this decides for every request of a transformation.
-/

namespace SingleFile

open Json

/-! ### Settings -/

section Reading

variable {v : Json} {fields : List (String × Json)}

theorem Project.isSorted_readObject (h : readObject v = some fields) : (Json.object fields).IsSorted := by
  cases v with
  | object all =>
    have hread : Json.asFields (fun v => some v.sorted) (.object all) =
        some (all.map fun f => (f.1, f.2.sorted)) := List.mapM_pure
    rw [readObject, Json.asSortedFields, hread] at h
    cases h
    refine isSorted_foldl_insertField ?_ isSorted_nil
    intro f hf
    obtain ⟨g, -, rfl⟩ := List.mem_map.1 hf
    exact isSorted_sorted g.2
  | _ => exact nomatch h

theorem Project.isSorted_field {name : String} {x : List (String × Json)}
    (h : fieldOr fields name [] readObject = some x) : (Json.object x).IsSorted := by
  rcases fieldOr_cases h with rfl | ⟨v, -, h⟩
  · exact isSorted_nil
  · exact isSorted_readObject h

theorem Project.isSorted_ofJson {p : Project} (h : ofJson v = some p) :
    (Json.object p.globals).IsSorted := by
  obtain ⟨fields, -, h⟩ := Option.bind_eq_some_iff.1 h
  obtain ⟨root, -, h⟩ := Option.bind_eq_some_iff.1 h
  obtain ⟨rules, -, h⟩ := Option.bind_eq_some_iff.1 h
  obtain ⟨globals, hglobals, h⟩ := Option.bind_eq_some_iff.1 h
  cases h
  exact isSorted_field hglobals

/-- Settings that have been read have their globals sorted. -/
theorem Settings.isSorted_ofJson {s : Settings} (h : ofJson v = some s) :
    (Json.object s.project.globals).IsSorted := by
  obtain ⟨fields, -, h⟩ := Option.bind_eq_some_iff.1 h
  obtain ⟨esm, -, h⟩ := Option.bind_eq_some_iff.1 h
  obtain ⟨instrument, -, h⟩ := Option.bind_eq_some_iff.1 h
  obtain ⟨projectText, -, h⟩ := Option.bind_eq_some_iff.1 h
  obtain ⟨project, hproject, h⟩ := Option.bind_eq_some_iff.1 h
  cases h
  rcases fieldOr_cases hproject with rfl | ⟨v, -, hproject⟩
  · exact isSorted_nil
  · exact Project.isSorted_ofJson hproject

end Reading

structure Options.IsSorted (o : Options) : Prop where
  styleOptions : (Json.object o.styleOptions).IsSorted
  templateCompiler : (Json.object o.templateCompiler).IsSorted
  compilerOptions : (Json.object o.compilerOptions).IsSorted
  preprocess : (Json.object o.preprocess).IsSorted

theorem Options.isSorted_ofJson {v : Json} {o : Options} (h : ofJson v = some o) : o.IsSorted := by
  obtain ⟨fields, -, h⟩ := Option.bind_eq_some_iff.1 h
  cases v with
  | object all =>
    obtain ⟨others, -, h⟩ := Option.bind_eq_some_iff.1 h
    obtain ⟨transform, -, h⟩ := Option.bind_eq_some_iff.1 h
    obtain ⟨resources, -, h⟩ := Option.bind_eq_some_iff.1 h
    obtain ⟨compileStyles, -, h⟩ := Option.bind_eq_some_iff.1 h
    obtain ⟨styleOptions, hstyle, h⟩ := Option.bind_eq_some_iff.1 h
    obtain ⟨templateCompiler, htemplate, h⟩ := Option.bind_eq_some_iff.1 h
    obtain ⟨compilerOptions, hcompiler, h⟩ := Option.bind_eq_some_iff.1 h
    obtain ⟨preprocess, hpreprocess, h⟩ := Option.bind_eq_some_iff.1 h
    cases h
    exact ⟨Project.isSorted_field hstyle, Project.isSorted_field htemplate,
      Project.isSorted_field hcompiler, Project.isSorted_readObject hpreprocess⟩
  | _ => exact nomatch h

theorem Settings.isSorted_options {s : Settings} {o : Options} (h : s.options = .ok o) :
    o.IsSorted := by
  unfold options at h
  split at h
  · cases h
    exact ⟨isSorted_nil, isSorted_nil, isSorted_nil, isSorted_nil⟩
  · split at h
    · next ho =>
      cases h
      exact Options.isSorted_ofJson ho
    · cases h

/-! ### Components -/

theorem uniqueKeys_sourceMap (map : Option SourceMap) : (SourceMap.ofOption map).UniqueKeys := by
  cases map with
  | none => exact .null
  | some map => exact (isSorted_sorted _).uniqueKeys

theorem Attribute.uniqueKeys_entry (value : Option String) : (Attribute.entry value).UniqueKeys := by
  unfold Attribute.entry
  split
  · split
    · exact .bool true
    · exact .string _
  · exact .bool true

theorem Attribute.uniqueKeys_toJson_iff (attributes : List Attribute) :
    (Attribute.toJson attributes).UniqueKeys ↔ (attributes.map (·.name)).Nodup := by
  have hjson : Attribute.toJson attributes =
      .object (attributes.map fun a => (a.name, Attribute.entry a.value)) := rfl
  have hvalues : ∀ f ∈ attributes.map fun a => (a.name, Attribute.entry a.value), f.2.UniqueKeys :=
    List.forall_mem_map.2 fun a _ => uniqueKeys_entry a.value
  rw [hjson, uniqueKeys_object_iff, and_iff_left hvalues, List.map_map]
  rfl

def Block.fieldNames : List String := ["content", "attrs", "lang", "src", "map"]

/-- A block, with the fields that only its kind has. -/
theorem Block.uniqueKeys_iff (b : Block) {more : List (String × Json)} (names : List String)
    (hnames : more.map (·.1) = names) (hkeys : (fieldNames ++ names).Nodup)
    (hmore : ∀ f ∈ more, f.2.UniqueKeys) :
    (Json.object (b.fields ++ more)).UniqueKeys ↔ (b.attributes.map (·.name)).Nodup := by
  have hfields : (b.fields ++ more).map (·.1) = fieldNames ++ names := by
    rw [List.map_append, hnames]
    rfl
  rw [uniqueKeys_of_names _ hfields hkeys, List.forall_mem_append, and_iff_left hmore, Block.fields]
  simp only [List.forall_mem_cons, Attribute.uniqueKeys_toJson_iff]
  constructor
  · rintro ⟨-, h, -⟩
    exact h
  · intro h
    exact ⟨.string _, h, keyed_ofOption _, keyed_ofOption _, uniqueKeys_sourceMap _,
      fun _ hf => nomatch hf⟩

namespace Component

theorem uniqueKeys_of_mem_documents {c : Component} {x : Block × Json} (hx : x ∈ c.documents) :
    x.2.UniqueKeys ↔ (x.1.attributes.map (·.name)).Nodup := by
  simp only [documents, List.mem_append, Option.mem_toList, Option.map_eq_some_iff, List.mem_map] at hx
  rcases hx with ⟨b, -, rfl⟩ | ⟨b, -, rfl⟩ | ⟨b, -, rfl⟩ | ⟨b, -, rfl⟩ | ⟨b, -, rfl⟩
  · exact b.uniqueKeys_iff ["functional"] rfl (by decide)
      (List.forall_mem_singleton.2 (.bool _))
  · exact b.uniqueKeys_iff ["setup"] rfl (by decide)
      (List.forall_mem_singleton.2 (.bool _))
  · exact b.uniqueKeys_iff ["setup"] rfl (by decide)
      (List.forall_mem_singleton.2 (.bool _))
  · exact b.uniqueKeys_iff ["scoped", "module"] rfl (by decide)
      (List.forall_mem_cons.2 ⟨.bool _, List.forall_mem_singleton.2 (keyed_ofOption _)⟩)
  · exact b.uniqueKeys_iff ["type"] rfl (by decide)
      (List.forall_mem_singleton.2 (.string _))

theorem uniqueKeys_toJson_iff (c : Component) :
    c.toJson.UniqueKeys ↔ ∀ x ∈ c.blocks, (x.2.attributes.map (·.name)).Nodup := by
  have horNull {α : Type} (f : α → Json) (v : Option α) :
      ((v.map f).getD .null).UniqueKeys ↔ ∀ b ∈ v, (f b).UniqueKeys := by
    cases v with
    | none => exact iff_of_true .null fun _ hb => nomatch hb
    | some b => simp
  have htoList {α : Type} (f : α → Block × Json) (v : Option α) :
      (∀ x ∈ (v.map f).toList, x.2.UniqueKeys) ↔ ∀ b ∈ v, (f b).2.UniqueKeys := by
    cases v <;> simp
  have hdocuments : c.toJson.UniqueKeys ↔ ∀ x ∈ c.documents, x.2.UniqueKeys := by
    unfold toJson documents
    rw [uniqueKeys_of_names ["filename", "source", "template", "script", "scriptSetup", "styles",
      "customBlocks"] rfl (by decide)]
    simp only [List.forall_mem_cons, List.forall_mem_append, List.forall_mem_map, keyed_array_iff,
      horNull, htoList]
    constructor
    · rintro ⟨-, -, htemplate, hscript, hsetup, hstyles, hcustom, -⟩
      exact ⟨htemplate, hscript, hsetup, hstyles, hcustom⟩
    · rintro ⟨htemplate, hscript, hsetup, hstyles, hcustom⟩
      exact ⟨.string _, .string _, htemplate, hscript, hsetup, hstyles, hcustom, fun _ hf => nomatch hf⟩
  have hblocks : (∀ x ∈ c.blocks, (x.2.attributes.map (·.name)).Nodup) ↔
      ∀ x ∈ c.documents, (x.1.attributes.map (·.name)).Nodup := by
    have hmap := List.forall_mem_map (f := Prod.snd) (l := c.blocks)
      (P := fun b : Block => (b.attributes.map (·.name)).Nodup)
    rw [← hmap, ← c.documents_blocks, List.forall_mem_map]
  rw [hdocuments, hblocks]
  exact forall₂_congr fun x hx => uniqueKeys_of_mem_documents hx

end Component

/-! ### Requests -/

/-- Fields of the user that are laid over those of a request. -/
theorem Json.uniqueKeys_append_iff {own laid : List (String × Json)} (names : List String)
    (hown : own.map (·.1) = names) (hnames : names.Nodup) (hvalues : ∀ f ∈ own, f.2.UniqueKeys)
    (hlaid : (Json.object laid).UniqueKeys) :
    (Json.object (own ++ laid)).UniqueKeys ↔ ∀ name ∈ names, name ∉ laid.map (·.1) := by
  obtain ⟨hkeys, hlaid⟩ := uniqueKeys_object_iff.1 hlaid
  have hall : ∀ f ∈ own ++ laid, f.2.UniqueKeys := List.forall_mem_append.2 ⟨hvalues, hlaid⟩
  rw [uniqueKeys_object_iff, and_iff_left hall, List.map_append, hown, List.nodup_append]
  constructor
  · rintro ⟨-, -, hapart⟩ name hname hmem
    exact hapart name hname name hmem rfl
  · intro hapart
    refine ⟨hnames, hkeys, ?_⟩
    rintro name hname _ hmem rfl
    exact hapart name hname hmem

theorem Json.uniqueKeys_filter {fields : List (String × Json)} (h : (Json.object fields).UniqueKeys)
    (p : String × Json → Bool) : (Json.object (fields.filter p)).UniqueKeys := by
  obtain ⟨hkeys, h⟩ := uniqueKeys_object_iff.1 h
  refine .object (hkeys.sublist (List.filter_sublist.map _)) fun f hf => h f (List.mem_of_mem_filter hf)

theorem Request.uniqueKeys_document_iff (r : Request) :
    r.document.UniqueKeys ↔ r.payload.UniqueKeys := by
  rw [document, uniqueKeys_of_names ["kind", "payload"] rfl (by decide), List.forall_mem_cons,
    and_iff_right (.string _), List.forall_mem_singleton]

theorem Settings.uniqueKeys_toJson {s : Settings} (h : (Json.object s.project.globals).UniqueKeys) :
    s.toJson.UniqueKeys := by
  have hrules : (Json.array (s.project.nameRules.map fun r =>
      .array [.string r.1, .string r.2])).UniqueKeys := by
    refine .array (List.forall_mem_map.2 fun r _ => .array ?_)
    exact List.forall_mem_cons.2 ⟨.string _, List.forall_mem_singleton.2 (.string _)⟩
  have hproject : s.project.toJson.UniqueKeys := by
    rw [Project.toJson, uniqueKeys_of_names ["rootDir", "moduleNameMapper", "globals"] rfl (by decide)]
    exact List.forall_mem_cons.2 ⟨keyed_ofOption _, List.forall_mem_cons.2 ⟨hrules,
      List.forall_mem_singleton.2 h⟩⟩
  rw [toJson, uniqueKeys_of_names ["supportsStaticESM", "instrument", "configString", "config"] rfl
    (by decide)]
  exact List.forall_mem_cons.2 ⟨.bool _, List.forall_mem_cons.2 ⟨.bool _, List.forall_mem_cons.2
    ⟨.string _, List.forall_mem_singleton.2 hproject⟩⟩⟩

/-- The names of the fields that a request for a setup script has for its options. -/
def SetupOptions.names : List String := ["id", "reactivityTransform"]

theorem SetupOptions.uniqueKeys_toJson_iff (o : SetupOptions) (h : (Json.object o.extra).UniqueKeys) :
    o.toJson.UniqueKeys ↔ ∀ name ∈ names, name ∉ o.extra.map (·.1) :=
  uniqueKeys_append_iff names rfl (by decide)
    (List.forall_mem_cons.2 ⟨.string _, List.forall_mem_singleton.2 (.bool _)⟩) h

theorem SetupRequest.uniqueKeys_toJson_iff (r : SetupRequest)
    (h : (Json.object r.options.extra).UniqueKeys) :
    r.toJson.UniqueKeys ↔ (∀ x ∈ r.component.blocks, (x.2.attributes.map (·.name)).Nodup) ∧
      ∀ name ∈ SetupOptions.names, name ∉ r.options.extra.map (·.1) := by
  rw [toJson, uniqueKeys_of_names ["descriptor", "options"] rfl (by decide), List.forall_mem_cons,
    List.forall_mem_singleton, r.component.uniqueKeys_toJson_iff, r.options.uniqueKeys_toJson_iff h]

theorem ScriptRequest.uniqueKeys_toJson {r : ScriptRequest}
    (h : (Json.object r.settings.project.globals).UniqueKeys) : r.toJson.UniqueKeys := by
  rw [toJson, uniqueKeys_of_names ["source", "filename", "lang", "config"] rfl (by decide)]
  simp only [List.forall_mem_cons]
  exact ⟨.string _, .string _, keyed_ofOption _, Settings.uniqueKeys_toJson h, fun _ hf => nomatch hf⟩

theorem StyleRequest.uniqueKeys_toJson {r : StyleRequest}
    (h : (Json.object r.preprocessOptions).UniqueKeys) : r.toJson.UniqueKeys := by
  rw [toJson, uniqueKeys_of_names ["source", "filePath", "preprocessLang", "preprocessOptions", "scoped"]
    rfl (by decide)]
  simp only [List.forall_mem_cons]
  exact ⟨.string _, .string _, keyed_ofOption _, h, .bool _, fun _ hf => nomatch hf⟩

/-- The names of the fields of a request for a template. -/
def TemplateRequest.names : List String :=
  ["source", "filename", "isFunctional", "preprocessLang", "preprocessOptions", "compilerOptions",
    "bindings"]

theorem TemplateRequest.uniqueKeys_toJson_iff (r : TemplateRequest)
    (hpreprocess : ∀ v ∈ r.preprocessOptions, v.UniqueKeys) (hcompiler : r.compilerOptions.UniqueKeys)
    (hbindings : ∀ v ∈ r.bindings, v.UniqueKeys) (h : (Json.object r.overrides).UniqueKeys) :
    r.toJson.UniqueKeys ↔ ∀ name ∈ names, name ∉ r.overrides.map (·.1) := by
  have horNull {v : Option Json} (h : ∀ w ∈ v, w.UniqueKeys) : (v.getD .null).UniqueKeys := by
    cases v with
    | none => exact .null
    | some w => exact h w rfl
  refine uniqueKeys_append_iff names rfl (by decide) ?_ h
  simp only [List.forall_mem_cons]
  exact ⟨.string _, .string _, .bool _, keyed_ofOption _, horNull hpreprocess, hcompiler,
    horNull hbindings, fun _ hf => nomatch hf⟩

namespace Stage

variable {κ : Type} {cx : Context κ}

theorem uniqueKeys_styleRequest (h : cx.options.IsSorted) (content file : String)
    (lang : Option String) : (styleRequest cx content file lang).toJson.UniqueKeys := by
  have hlanguage : (Json.object (languageOptions lang file cx.files.directory)).IsSorted := by
    unfold languageOptions
    split
    · exact isSorted_singleton _ (.string _)
    · split
      · refine isSorted_singleton _ (.array ?_)
        exact List.forall_mem_cons.2 ⟨.string _, List.forall_mem_singleton.2 (.string _)⟩
      · exact isSorted_nil
  have hvalues := (keyed_object_iff.1 h.styleOptions).2
  exact StyleRequest.uniqueKeys_toJson (isSorted_foldl_insertField hvalues hlanguage).uniqueKeys

theorem uniqueKeys_templateRequest_iff (h : cx.options.IsSorted) (template : TemplateBlock)
    (content : String) {bindings : Option Json} (hbindings : ∀ b ∈ bindings, b.UniqueKeys) :
    (templateRequest cx template content bindings).toJson.UniqueKeys ↔
      ∀ name ∈ TemplateRequest.names, name ≠ compilerOptionsName →
        name ∉ cx.options.templateCompiler.map (·.1) := by
  obtain ⟨-, huser⟩ := keyed_object_iff.1 h.templateCompiler
  have hpreprocess : ∀ v ∈ template.lang.bind cx.options.preprocessOptions, v.UniqueKeys := by
    intro v hv
    obtain ⟨lang, -, hv⟩ := Option.bind_eq_some_iff.1 hv
    exact IsSorted.uniqueKeys (Keyed.lookup (keyed_object_iff.1 h.preprocess).2 hv)
  have hcompiler : (templateRequest cx template content bindings).compilerOptions.UniqueKeys := by
    have hdefaults : compilerDefaults.IsSorted := isSorted_singleton _ (.bool _)
    unfold templateRequest
    dsimp only
    split
    · next v hv => exact (isSorted_merge hdefaults (Keyed.lookup huser hv)).uniqueKeys
    · exact hdefaults.uniqueKeys
  have hkeys : (cx.options.templateCompiler.filter fun f => f.1 ≠ compilerOptionsName).map (·.1) =
      (cx.options.templateCompiler.map (·.1)).filter fun name => name ≠ compilerOptionsName := by
    rw [List.filter_map]
    rfl
  rw [TemplateRequest.uniqueKeys_toJson_iff _ hpreprocess hcompiler hbindings
    (uniqueKeys_filter h.templateCompiler.uniqueKeys _)]
  refine forall₂_congr fun name _ => ?_
  show name ∉ (cx.options.templateCompiler.filter fun f => f.1 ≠ compilerOptionsName).map (·.1) ↔ _
  rw [hkeys, List.mem_filter, decide_eq_true_iff, not_and']

end Stage

/-! ### Answers -/

theorem SetupOutput.isSorted_ofJson {v : Json} {made : SetupOutput} (h : ofJson v = some made) :
    ∀ b ∈ made.bindings, b.IsSorted := by
  obtain ⟨fields, -, h⟩ := Option.bind_eq_some_iff.1 h
  obtain ⟨content, -, h⟩ := Option.bind_eq_some_iff.1 h
  obtain ⟨map, -, h⟩ := Option.bind_eq_some_iff.1 h
  obtain ⟨bindings, hbindings, h⟩ := Option.bind_eq_some_iff.1 h
  cases h
  have hnone : ∀ b ∈ (none : Option Json), b.IsSorted := fun _ hb => nomatch hb
  have hread (v : Json) (x : Option Json) (hx : Json.optional asObject v = some x) :
      ∀ b ∈ x, b.IsSorted := by
    cases v with
    | null =>
      cases hx
      exact hnone
    | object fields =>
      cases hx
      rintro _ ⟨⟩
      exact isSorted_sorted _
    | _ => exact nomatch hx
  rcases fieldOr_cases hbindings with rfl | ⟨v, -, hbindings⟩
  · exact hnone
  · exact hread v _ hbindings

/-- A command gives names in an object that is sorted. -/
theorem Bridge.givesUniqueKeys_setup {κ : Type} (b : Bridge) (runner : Command.Runner) :
    (b.setup runner : Compiler κ SetupRequest SetupOutput).GivesUniqueKeys := by
  have hreply (text : String) (made : SetupOutput)
      (h : readReply SetupOutput.ofJson text = .ok made) : ∀ x ∈ made.bindings, x.UniqueKeys := by
    unfold readReply at h
    split at h
    · split at h
      · next hread =>
        cases h
        exact fun x hx => (SetupOutput.isSorted_ofJson hread x hx).uniqueKeys
      · cases h
    · cases h
    · cases h
  have hdecode (ending : Command.Ending) (made : SetupOutput)
      (h : b.decode SetupOutput.ofJson ending = .ok made) : ∀ x ∈ made.bindings, x.UniqueKeys := by
    unfold decode at h
    split at h
    · exact hreply _ _ h
    · cases h
  have hcall (r : SetupRequest) : (b.call runner .setup r.toJson SetupOutput.ofJson : Work κ _).Yields
      fun made => ∀ x ∈ made.bindings, x.UniqueKeys := by
    refine Routine.yields_bind (Routine.yields_true _) fun _ _ => ?_
    split
    · next ending _ =>
      refine (Routine.gives_ofExcept (b.decode SetupOutput.ofJson ending)).mono ?_
      rintro _ rfl made hmade
      exact hdecode ending made hmade
    · exact Routine.yields_fail _
  intro pace r
  cases pace with
  | blocking => exact hcall r
  | suspending => exact hcall r

/-! ### What is asked -/

/-- Whether no key of a request stands beside another that is the same: the blocks of a component have
each attribute once, and the options leave the names of the fields alone. -/
def Request.Clear (options : Options) (component : Component) : Request → Prop
  | .script _ => True
  | .setup _ => (∀ x ∈ component.blocks, (x.2.attributes.map (·.name)).Nodup) ∧
      ∀ name ∈ SetupOptions.names, name ∉ options.compilerOptions.map (·.1)
  | .template _ => ∀ name ∈ TemplateRequest.names, name ≠ Stage.compilerOptionsName →
      name ∉ options.templateCompiler.map (·.1)
  | .style _ => True

variable {κ : Type}

theorem Context.Asks.uniqueKeys_iff {cx : Context κ} {component : Component} {r : Request}
    (h : cx.Asks component r) (hglobals : (Json.object cx.settings.project.globals).UniqueKeys)
    (hoptions : cx.options.IsSorted) : r.document.UniqueKeys ↔ r.Clear cx.options component := by
  rw [r.uniqueKeys_document_iff]
  cases h with
  | script source lang => exact iff_of_true (ScriptRequest.uniqueKeys_toJson hglobals) trivial
  | setup => exact SetupRequest.uniqueKeys_toJson_iff _ hoptions.compilerOptions.uniqueKeys
  | template template content hbindings =>
    exact Stage.uniqueKeys_templateRequest_iff hoptions template content hbindings
  | style content file lang =>
    exact iff_of_true (Stage.uniqueKeys_styleRequest hoptions content file lang) trivial

theorem SingleFileTransformer.OnlyAsks.mono {t : SingleFileTransformer κ} {P Q : Request → Prop}
    {files : Files} {source file : String} {settings : Settings} {pace : Pace}
    (h : t.OnlyAsks P files source file settings pace) (hPQ : ∀ r, P r → Q r) :
    t.OnlyAsks Q files source file settings pace :=
  fun compilers hagree => h compilers (hagree.mono hPQ)

/-- **When the requests of a transformation have no key twice.**  Globals that have been read are
sorted (`Settings.isSorted_ofJson`), and so are the names that a command gives
(`Bridge.givesUniqueKeys_setup`). -/
theorem SingleFileTransformer.onlyAsks_uniqueKeys_iff (t : SingleFileTransformer κ)
    (hsetup : ∀ c ∈ t.compilers.setup, c.GivesUniqueKeys) (files : Files) (source file : String)
    {settings : Settings} (hglobals : (Json.object settings.project.globals).UniqueKeys) (pace : Pace) :
    t.OnlyAsks (fun r => ∃ options, settings.options = .ok options ∧
      (r.document.UniqueKeys ↔ r.Clear options (Component.parse source file)))
      files source file settings pace := by
  refine (t.process_onlyAsks hsetup files source file settings pace).mono ?_
  rintro r ⟨cx, -, rfl, hoptions, hasks⟩
  exact ⟨cx.options, hoptions, hasks.uniqueKeys_iff hglobals (Settings.isSorted_options hoptions)⟩

/-! ### An option with the name of a field -/

/-- Settings that give the compiler of setup scripts an `id` of their own. -/
def idSettings : Settings where
  project.globals := [("vue-jest", .object [("compilerOptions", .object [("id", .string "card")])])]

def setupSource : String := "<script setup>let a</script>"

def setupFile : String := "/app/Setup.vue"

def tellingTransformer : SingleFileTransformer Unit where
  compilers.setup := some (Bridge.setup (fun i => .ok ⟨1, "", i.input⟩) ⟨"tell", [], none⟩)

theorem onlyAsks_uniqueKeys_iff_idSettings :
    (∀ c ∈ tellingTransformer.compilers.setup, c.GivesUniqueKeys) ∧
    (Json.object idSettings.project.globals).UniqueKeys ∧
    tellingTransformer.OnlyAsks (fun r => ∃ options, idSettings.options = .ok options ∧
      (r.document.UniqueKeys ↔ r.Clear options (Component.parse setupSource setupFile)))
      {} setupSource setupFile idSettings .blocking := by
  have hsetup : ∀ c ∈ tellingTransformer.compilers.setup, c.GivesUniqueKeys := by
    rintro _ ⟨⟩
    exact Bridge.givesUniqueKeys_setup _ _
  have hglobals : (Json.object idSettings.project.globals).UniqueKeys :=
    (isSorted_singleton _ (isSorted_singleton _ (isSorted_singleton _ (.string _)))).uniqueKeys
  exact ⟨hsetup, hglobals,
    tellingTransformer.onlyAsks_uniqueKeys_iff hsetup {} setupSource setupFile hglobals .blocking⟩

/-- A compiler of setup scripts that may refuse options with an `id`. -/
def choosyCompiler (accepts : Bool) : Compiler Unit SetupRequest SetupOutput :=
  .ofBlocking fun r =>
    if accepts || !(r.options.extra.map (·.1)).contains "id" then .done { content := "" }
    else .fail (.message "id")

def choosyTransformer (accepts : Bool) : SingleFileTransformer Unit where
  compilers.setup := some (choosyCompiler accepts)

/-- It makes a difference whether such options are refused, although the compilers do the same with
every request that has no key twice. -/
theorem not_onlyAsks_uniqueKeys_idSettings : ¬ (choosyTransformer true).OnlyAsks
    (fun r => r.document.UniqueKeys) {} setupSource setupFile idSettings .blocking := by
  intro h
  have hid (r : SetupRequest) (hr : (Request.setup r).document.UniqueKeys) :
      "id" ∉ r.options.extra.map (·.1) := by
    rw [Request.uniqueKeys_document_iff, Request.payload, SetupRequest.toJson, uniqueKeys_object_iff] at hr
    have hoptions := (uniqueKeys_object_iff.1 (hr.2 ("options", r.options.toJson) (by simp))).1
    rw [List.map_append, List.nodup_append] at hoptions
    exact fun hmem => hoptions.2.2 "id" (by simp) "id" hmem rfl
  have hchoosy : (choosyCompiler true).AgreeOn (fun r => (Request.setup r).document.UniqueKeys)
      (choosyCompiler false) := by
    intro pace r hr
    have hnot : (r.options.extra.map (·.1)).contains "id" = false := by
      rw [Bool.eq_false_iff, ne_eq, List.contains_iff_mem]
      exact hid r hr
    have haccepts (accepts : Bool) :
        (choosyCompiler accepts).compile pace r = .done { content := "" } := by
      cases pace <;> simp only [choosyCompiler, Compiler.ofBlocking, Compiler.compile, hnot,
        Bool.not_false, Bool.or_true, if_true]
    rw [haccepts, haccepts]
  have hsame := h (choosyTransformer false).compilers
    ⟨fun _ _ _ => rfl, .none, .some hchoosy, .none, fun _ _ _ => rfl⟩
  have haccepted : (((choosyTransformer true).process {} setupSource setupFile idSettings .blocking).run
      ⟨[], ()⟩).1.isOk = true := by
    decide +kernel
  have hrefused : (((choosyTransformer false).process {} setupSource setupFile idSettings .blocking).run
      ⟨[], ()⟩).1.isOk = false := by
    decide +kernel
  have hasking : (choosyTransformer true).asking (choosyTransformer false).compilers =
      choosyTransformer false := rfl
  rw [hasking] at hsame
  rw [hsame, haccepted] at hrefused
  cases hrefused

end SingleFile
