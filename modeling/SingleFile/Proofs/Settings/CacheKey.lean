import SingleFile.Proofs.Json.Injective
import SingleFile.Proofs.Json.Keys
import SingleFile.Settings.CacheKey

/-!
# Cache keys tell requests apart

A key is a digest of bytes, and `digested` are the bytes.  They are made of parts that are ended by
zeros, and of these the source may hold zeros itself.  So the parts are found from the far end: none
of the parts behind the source holds a zero, as the text of a value never does and the names of the
flags do not.  The text of the project has one value, and that value one project
(`Project.toJson_injective`).

`digested_eq_iff` is the result: requests are digested from one sequence of bytes only if they are one
request.  All that a key can confuse is therefore confused by the digest.
-/

namespace SingleFile

/-! ### Projects as values -/

theorem Json.ofOption_injective {a b : Option String} (h : Json.ofOption a = Json.ofOption b) :
    a = b := by
  cases a <;> cases b <;> simp [Json.ofOption] at h ⊢
  exact h

/-- A project can be told from its value. -/
theorem Project.toJson_injective {p q : Project} (h : p.toJson = q.toJson) : p = q := by
  obtain ⟨root, rules, globals⟩ := p
  obtain ⟨root', rules', globals'⟩ := q
  simp only [toJson, Json.object.injEq, List.cons.injEq, Prod.mk.injEq, Json.array.injEq, true_and,
    and_true] at h
  obtain ⟨hroot, hrules, hglobals⟩ := h
  have hrule : Function.Injective fun r : String × String => Json.array [.string r.1, .string r.2] := by
    rintro ⟨a, b⟩ ⟨c, d⟩ heq
    simpa using heq
  rw [Json.ofOption_injective hroot, (List.map_injective_iff.2 hrule) hrules, hglobals]

theorem Project.sound_toJson {p : Project} (h : Json.SoundFields p.globals) : p.toJson.Sound := by
  refine ⟨?_, ?_, h, trivial⟩
  · cases p.rootDir <;> trivial
  · refine Json.soundItems_iff.2 fun v hv => ?_
    obtain ⟨r, _, rfl⟩ := List.mem_map.1 hv
    exact ⟨trivial, trivial, trivial⟩

/-! ### Settings that are read -/

theorem Json.sound_recordFields {names : List String} {v : Json} {fields : List (String × Json)}
    (hv : v.Sound) (h : recordFields names v = some fields) : ∀ f ∈ fields, f.2.Sound := by
  cases v with
  | array items =>
    rw [recordFields] at h
    split at h
    · cases h
      exact fun f hf => soundItems_iff.1 hv f.2 (List.of_mem_zip hf).2
    · exact nomatch h
  | object all =>
    simp only [recordFields, objectFields] at h
    split at h
    · cases h
      exact fun f hf => soundFields_iff.1 hv f (List.mem_of_mem_filter hf)
    · exact nomatch h
  | _ => exact nomatch h

/-- What a field holds, from what its default and its reader give. -/
theorem Json.of_fieldOr {α : Type} {P : α → Prop} {fields : List (String × Json)} {name : String}
    {default x : α} {read : Json → Option α} (hfields : ∀ f ∈ fields, f.2.Sound)
    (hdefault : P default) (hread : ∀ v x, v.Sound → read v = some x → P x)
    (h : fieldOr fields name default read = some x) : P x := by
  rcases fieldOr_cases h with rfl | ⟨v, hv, h⟩
  · exact hdefault
  · exact hread v x (hfields _ (mem_of_lookup hv)) h

theorem Project.sound_readObject {v : Json} {fields : List (String × Json)} (hv : v.Sound)
    (h : readObject v = some fields) : Json.SoundFields fields := by
  cases v with
  | object all =>
    have hread : Json.asFields (fun v => some v.sorted) (.object all) =
        some (all.map fun f => (f.1, f.2.sorted)) := List.mapM_pure
    rw [readObject, Json.asSortedFields, hread] at h
    cases h
    refine Json.soundFields_iff.2 (Json.forall_foldl_insertField ?_
      (fun _ hf => absurd hf List.not_mem_nil))
    intro f hf
    obtain ⟨g, hg, rfl⟩ := List.mem_map.1 hf
    exact Json.sound_sorted (Json.soundFields_iff.1 hv g hg)
  | _ => exact nomatch h

theorem Project.sound_ofJson {v : Json} {p : Project} (hv : v.Sound) (h : ofJson v = some p) :
    Json.SoundFields p.globals := by
  obtain ⟨fields, hfields, h⟩ := Option.bind_eq_some_iff.1 h
  obtain ⟨root, _, h⟩ := Option.bind_eq_some_iff.1 h
  obtain ⟨rules, _, h⟩ := Option.bind_eq_some_iff.1 h
  obtain ⟨globals, hglobals, h⟩ := Option.bind_eq_some_iff.1 h
  cases h
  exact Json.of_fieldOr (Json.sound_recordFields hv hfields) (show Json.SoundFields [] from trivial)
    (fun _ _ hv h => sound_readObject hv h) hglobals

/-- **The settings in a text hold doubles.** -/
theorem Settings.sound_ofJson_parse {text : String} {v : Json} {s : Settings}
    (hv : Json.parse text = some v) (h : ofJson v = some s) :
    Json.SoundFields s.project.globals := by
  obtain ⟨fields, hfields, h⟩ := Option.bind_eq_some_iff.1 h
  obtain ⟨esm, _, h⟩ := Option.bind_eq_some_iff.1 h
  obtain ⟨instrument, _, h⟩ := Option.bind_eq_some_iff.1 h
  obtain ⟨projectText, _, h⟩ := Option.bind_eq_some_iff.1 h
  obtain ⟨project, hproject, h⟩ := Option.bind_eq_some_iff.1 h
  cases h
  have hsound := Json.sound_recordFields (Json.sound_parse hv) hfields
  have hempty : Json.SoundFields ({} : Project).globals := trivial
  exact Json.of_fieldOr (P := fun p => Json.SoundFields p.globals) hsound hempty
    (fun _ _ hv h => Project.sound_ofJson hv h) hproject

/-- What a request has to keep to: no zeros in the name of the file and in the text of the project.
The globals hold doubles as they are stored, as all globals that are read do
(`sound_ofJson_parse`). -/
structure Settings.Plain (s : Settings) (file : String) : Prop where
  file : '\x00' ∉ file.toList
  text : '\x00' ∉ s.projectText.toList
  globals : Json.SoundFields s.project.globals

namespace CacheKey

/-! ### Parts from the far end -/

section Parts

variable {α : Type} {z : α}

/-- A text is cut in one way at the last place of a letter. -/
theorem append_cons_inj_of_not_mem_right [DecidableEq α] {a b c d : List α} (hb : z ∉ b) (hd : z ∉ d)
    (h : a ++ z :: b = c ++ z :: d) : a = c ∧ b = d := by
  have hrev (x y : List α) : (x ++ z :: y).reverse = y.reverse ++ z :: x.reverse := by simp
  have hin {y : List α} (hy : z ∉ y) : ∀ x ∈ y.reverse, decide (x ≠ z) = true := fun x hx =>
    decide_eq_true (ne_of_mem_of_not_mem (List.mem_reverse.1 hx) hy)
  have hout (x : List α) : ∀ c ∈ (z :: x).head?, decide (c ≠ z) = false := by
    rintro c ⟨⟩
    simp
  have h := congrArg List.reverse h
  rw [hrev, hrev] at h
  obtain ⟨hback, hfront⟩ := append_inj_of_head (hin hb) (hout _) (hin hd) (hout _) h
  exact ⟨List.reverse_injective (List.cons.inj hfront).2, List.reverse_injective hback⟩

/-- Parts without the letter between them are found from the far end, whatever stands in front. -/
theorem flatMap_inj_of_not_mem [DecidableEq α] {ps qs : List (List α)}
    (hlen : ps.length = qs.length) (hp : ∀ p ∈ ps, z ∉ p) (hq : ∀ q ∈ qs, z ∉ q) {a b : List α}
    (h : a ++ ps.flatMap (z :: ·) = b ++ qs.flatMap (z :: ·)) : a = b ∧ ps = qs := by
  -- the last parts are taken off first, as `a` and `b` may hold the letter
  induction ps using List.reverseRecOn generalizing qs with
  | nil =>
    obtain rfl := List.length_eq_zero_iff.1 hlen.symm
    simpa using h
  | append_singleton ps p ih =>
    rcases List.eq_nil_or_concat' qs with rfl | ⟨qs, q, rfl⟩
    · simp at hlen
    rw [List.flatMap_append, List.flatMap_append, List.flatMap_singleton, List.flatMap_singleton,
      ← List.append_assoc, ← List.append_assoc] at h
    obtain ⟨hfront, rfl⟩ := append_cons_inj_of_not_mem_right (hp p (by simp)) (hq q (by simp)) h
    obtain ⟨hab, rfl⟩ := ih (by simpa using hlen) (fun p h => hp p (by simp [h]))
      (fun q h => hq q (by simp [h])) hfront
    exact ⟨hab, rfl⟩

/-- A letter behind each part is a letter in front of each part but the first, and one at the end. -/
theorem flatMap_append_singleton (p : List α) (ps : List (List α)) :
    (p :: ps).flatMap (· ++ [z]) = p ++ ps.flatMap (z :: ·) ++ [z] := by
  induction ps generalizing p with
  | nil => simp
  | cons q ps ih => rw [List.flatMap_cons, ih, List.flatMap_cons]; simp

end Parts

/-! ### Bytes -/

theorem toList_loop (bytes : ByteArray) (i : Nat) (r : List UInt8) :
    ByteArray.toList.loop bytes i r = r.reverse ++ bytes.data.toList.drop i := by
  induction i, r using ByteArray.toList.loop.induct bytes with
  | case1 i r h ih =>
    have hlt : i < bytes.data.toList.length := by simpa using h
    have hget : bytes.get! i = bytes.data.toList[i] := by
      simp [ByteArray.get!, getElem!_pos, h]
    rw [ByteArray.toList.loop, if_pos h, ih, List.drop_eq_getElem_cons hlt, hget]
    simp
  | case2 i r h =>
    rw [ByteArray.toList.loop, if_neg h, List.drop_eq_nil_of_le (by simpa using h)]
    simp

/-- A text can be told from its bytes. -/
theorem toUTF8_toList_injective {s t : String} (h : s.toUTF8.toList = t.toUTF8.toList) : s = t := by
  rw [ByteArray.toList, ByteArray.toList, toList_loop, toList_loop] at h
  have hdata : s.toByteArray.data = t.toByteArray.data := Array.toList_inj.1 (by simpa using h)
  exact String.toByteArray_inj.1 (ByteArray.ext hdata)

/-! ### The parts of a message -/

def coverage (s : Settings) : String := if s.instrument then "instrument" else ""

/-- The name of the format of modules. -/
def moduleFormat (s : Settings) : String := if s.esm then "esm" else "cjs"

def settingParts (file : String) (s : Settings) : List (List Char) :=
  [file.toList, s.projectText.toList, s.project.toJson.chars, (coverage s).toList,
    (moduleFormat s).toList]

theorem message_eq (source file : String) (s : Settings) :
    message source file s =
      version.toList ++ '\x00' :: source.toList ++ (settingParts file s).flatMap ('\x00' :: ·) ++
        ['\x00'] := by
  have hparts : (parts source file s).map String.toList =
      version.toList :: source.toList :: settingParts file s := by
    simp only [parts, List.map_cons, List.map_nil, Json.compact, String.toList_ofList]
    rfl
  have hmessage : message source file s =
      ((parts source file s).map String.toList).flatMap (· ++ ['\x00']) := by
    rw [message, List.flatMap_map]
  rw [hmessage, hparts, flatMap_append_singleton, List.flatMap_cons]
  simp

theorem not_mem_settingParts {s : Settings} {file : String} (h : s.Plain file) :
    ∀ p ∈ settingParts file s, '\x00' ∉ p := by
  intro p hp
  simp only [settingParts, List.mem_cons, List.not_mem_nil, or_false] at hp
  rcases hp with rfl | rfl | rfl | rfl | rfl
  · exact h.file
  · exact h.text
  · exact fun hz => absurd (Json.le_of_mem_chars hz) (by decide)
  · unfold coverage
    split <;> decide
  · unfold moduleFormat
    split <;> decide

theorem coverage_injective {s s' : Settings} (h : coverage s = coverage s') :
    s.instrument = s'.instrument := by
  unfold coverage at h
  cases hs : s.instrument <;> cases hs' : s'.instrument <;> simp [hs, hs'] at h ⊢

theorem moduleFormat_injective {s s' : Settings} (h : moduleFormat s = moduleFormat s') :
    s.esm = s'.esm := by
  unfold moduleFormat at h
  cases hs : s.esm <;> cases hs' : s'.esm <;> simp [hs, hs'] at h ⊢

/-- **Requests with the same bytes are the same request**, whatever the sources are. -/
theorem digested_eq_iff {source source' file file' : String} {s s' : Settings} (h : s.Plain file)
    (h' : s'.Plain file') :
    digested source file s = digested source' file' s' ↔
      source = source' ∧ file = file' ∧ s = s' := by
  refine ⟨fun heq => ?_, fun ⟨hs, hf, hset⟩ => by rw [hs, hf, hset]⟩
  have hlen : (settingParts file s).length = (settingParts file' s').length := rfl
  have hmessage := String.ofList_injective (toUTF8_toList_injective heq)
  rw [message_eq, message_eq] at hmessage
  obtain ⟨hfront, hparts⟩ := flatMap_inj_of_not_mem hlen (not_mem_settingParts h)
    (not_mem_settingParts h') (List.append_cancel_right hmessage)
  have hsource := (List.cons.inj (List.append_cancel_left hfront)).2
  simp only [settingParts, List.cons.injEq, and_true, String.toList_inj] at hparts
  obtain ⟨hfile, htext, hproject, hcoverage, hformat⟩ := hparts
  have hvalue : s.project.toJson.compact = s'.project.toJson.compact := by
    rw [Json.compact, hproject, Json.compact]
  have hproject := Project.toJson_injective
    (Json.compact_injective (Project.sound_toJson h.globals) (Project.sound_toJson h'.globals) hvalue)
  refine ⟨String.toList_injective hsource, hfile, ?_⟩
  obtain ⟨esm, instrument, text, project⟩ := s
  obtain ⟨esm', instrument', text', project'⟩ := s'
  rw [Settings.mk.injEq]
  exact ⟨moduleFormat_injective hformat, coverage_injective hcoverage, htext, hproject⟩

/-- Settings with a rule for names and with a number that is not whole. -/
def scaledSettings : Settings where
  instrument := true
  project := {
    rootDir := some "/app"
    nameRules := [("^@/", "<rootDir>/src/")]
    globals := [("scale", .number (.real ⟨false, 2 ^ 52, -53⟩))] }

theorem plain_scaledSettings {file : String} (h : '\x00' ∉ file.toList) :
    scaledSettings.Plain file where
  file := h
  text := by decide
  globals := ⟨⟨by decide, by decide, by decide, .inl (by decide)⟩, trivial⟩

/-- A source with a zero in it, against a shorter source and another name. -/
theorem digested_eq_iff_zeroedSource :
    scaledSettings.Plain "/app/C.vue" ∧ scaledSettings.Plain "/app/B.vue" ∧
      digested "a\x00/app/B.vue" "/app/C.vue" scaledSettings ≠
        digested "a" "/app/B.vue" scaledSettings := by
  have hc : scaledSettings.Plain "/app/C.vue" := plain_scaledSettings (by decide)
  have hb : scaledSettings.Plain "/app/B.vue" := plain_scaledSettings (by decide)
  exact ⟨hc, hb, fun h => absurd ((digested_eq_iff hc hb).1 h).1 (by decide)⟩

end CacheKey

end SingleFile
