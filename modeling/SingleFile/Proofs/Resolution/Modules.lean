import SingleFile.Resolution.Import
import SingleFile.Proofs.Files.Ancestors
import SingleFile.Proofs.Files.Place

/-!
# Where imports from installed modules lead

An import behind a tilde is looked for in the `node_modules` of every directory above the file, the
nearest first, and there under several names (`Names`).  The result is the first of these paths that is
one of a file (`Found`); if there is none, the import is read like any other path, with the tilde as a
letter of its name (`resolveStyle_cases`).

The text behind the tilde is joined to the directory as it stands.  So a path that is looked at lies in
`node_modules` just when that text is not absolute and no `..` of it takes back more than the names
before it (`liesIn_modulePath_iff`); an absolute one is looked at where it is, whatever the directory.
-/

namespace SingleFile.Resolution

open SingleFile.Path

/-- The names that a name may mean in a language, the preferred one first: with the extension of a style
the name itself, else the name with the extensions, the language's own in front; and each of them before
the one of a partial style. -/
inductive Names (lang : Option String) (name : List Char) : List (List Char) → Prop
  | complete {stem : List Char} {extension : String} :
      extension ∈ ["scss", "sass", "css"] → name = stem ++ '.' :: extension.toList →
      Names lang name [name, '_' :: name]
  | extended : (∀ extension ∈ ["scss", "sass", "css"], ∀ stem, name ≠ stem ++ '.' :: extension.toList) →
      Names lang name ((lang.toList ++ ["scss", "sass", "css"]).eraseDups.flatMap fun extension =>
        [name ++ '.' :: extension.toList, '_' :: (name ++ '.' :: extension.toList)])

/-- The path at which a name is looked for from one of the directories above. -/
def modulePath (module above name : List Char) : List Char :=
  join (join (join above "node_modules".toList) (parent module)) name

/-- Where a search through directories ends, which tries all names in one of them before the next: at
the name of a file, with none before it. -/
inductive Found (files : Files) (module : List Char) (directories names : List (List Char))
    (above name : List Char) : Prop
  | intro {nearer further first others : List (List Char)} :
      directories = nearer ++ above :: further → names = first ++ name :: others →
      (∀ directory ∈ nearer, ∀ other ∈ names,
        files.isFile (modulePath module directory other) = false) →
      (∀ other ∈ first, files.isFile (modulePath module above other) = false) →
      files.isFile (modulePath module above name) = true →
      Found files module directories names above name

/-- Whether a path lies in a directory: it goes on from there, and never takes back more than it has
gone on. -/
def LiesIn (directory path : List Char) : Prop :=
  ∃ rest names, parts path = parts directory ++ rest ∧ Leaves rest 0 names

/-- A path in a directory leads to a place below that of the directory. -/
theorem LiesIn.target_prefix {directory path : List Char} (h : LiesIn directory path)
    (base : List (List Char)) : target base directory <+: target base path := by
  obtain ⟨rest, names, hparts, hleaves⟩ := h
  refine ⟨names, ?_⟩
  rw [target, target, hparts, List.foldl_append, hleaves.leads, Nat.sub_zero, List.take_length]

/-! ### Names -/

theorem withoutRepeats_filter (p : String → Bool) (xs : List String) :
    withoutRepeats (xs.filter p) = (withoutRepeats xs).filter p := by
  induction xs with
  | nil => rfl
  | cons x xs ih =>
    cases hx : p x with
    | true =>
      rw [List.filter_cons_of_pos hx, withoutRepeats, withoutRepeats, List.filter_cons_of_pos hx, ih,
        List.filter_comm]
    | false =>
      rw [List.filter_cons_of_neg (by simp [hx]), withoutRepeats, List.filter_cons_of_neg (by simp [hx]),
        ih, List.filter_filter]
      refine List.filter_congr fun y _ => ?_
      by_cases hy : y = x
      · subst hy
        simp [hx]
      · simp [hy]

theorem withoutRepeats_eq_eraseDups (xs : List String) : withoutRepeats xs = xs.eraseDups := by
  induction hn : xs.length using Nat.strong_induction_on generalizing xs with
  | _ n ih =>
    cases xs with
    | nil => rfl
    | cons x xs =>
      have hlength : (xs.filter (· ≠ x)).length < n := by
        rw [← hn]
        exact Nat.lt_succ_of_le (List.length_filter_le _ xs)
      have hfilter : xs.filter (· ≠ x) = xs.filter fun y => !y == x :=
        List.filter_congr fun y _ => by by_cases hy : y = x <;> simp [hy]
      rw [withoutRepeats, List.eraseDups_cons, ← withoutRepeats_filter, ih _ hlength _ rfl, hfilter]

theorem hasStyleExtension_eq_true_iff {name : List Char} : hasStyleExtension name = true ↔
    ∃ extension ∈ ["scss", "sass", "css"], ∃ stem, name = stem ++ '.' :: extension.toList := by
  rw [hasStyleExtension, List.any_eq_true]
  refine exists_congr fun extension => and_congr_right fun _ => ?_
  rw [List.isSuffixOf_iff_suffix]
  exact exists_congr fun stem => eq_comm

theorem names_candidateNames (name : List Char) (lang : Option String) :
    Names lang name (candidateNames name lang) := by
  unfold candidateNames
  split
  · next h =>
    obtain ⟨extension, hmem, stem, hname⟩ := hasStyleExtension_eq_true_iff.1 h
    exact .complete hmem hname
  · next h =>
    rw [withoutRepeats_eq_eraseDups]
    refine .extended fun extension hmem stem hname => h ?_
    exact hasStyleExtension_eq_true_iff.2 ⟨extension, hmem, stem, hname⟩

/-- None of the names is an absolute path. -/
theorem Names.isAbsolute_eq {lang : Option String} {name : List Char} {names : List (List Char)}
    (h : Names lang name names) (hname : '/' ∉ name) {other : List Char} (hother : other ∈ names) :
    isAbsolute other = false := by
  have hplain : isAbsolute name = false := by
    cases name with
    | nil => rfl
    | cons c r =>
      have hc : c ≠ '/' := fun heq => hname (heq ▸ List.mem_cons_self)
      simpa [isAbsolute] using hc
  have hextended (extension : String) : isAbsolute (name ++ '.' :: extension.toList) = false := by
    cases name with
    | nil => rfl
    | cons c r => exact hplain
  cases h with
  | complete =>
    simp only [List.mem_cons, List.not_mem_nil, or_false] at hother
    rcases hother with rfl | rfl
    · exact hplain
    · rfl
  | extended =>
    obtain ⟨extension, -, hmem⟩ := List.mem_flatMap.1 hother
    simp only [List.mem_cons, List.not_mem_nil, or_false] at hmem
    rcases hmem with rfl | rfl
    · exact hextended extension
    · rfl

theorem notMem_fileName? (module : List Char) : '/' ∉ (fileName? module).getD [] := by
  cases h : fileName? module with
  | none => exact List.not_mem_nil
  | some name =>
    obtain ⟨front, hfront⟩ := getLast?_of_fileName? h
    have hmem : .name name ∈ inner module := by
      rw [hfront]
      exact List.mem_append_right _ List.mem_cons_self
    exact (isInner_of_mem hmem).2

/-! ### The search -/

theorem modulePaths_eq (module file : List Char) (lang : Option String) :
    modulePaths module file lang = (ancestors (parent file)).flatMap fun above =>
      (candidateNames ((fileName? module).getD []) lang).map (modulePath module above) := rfl

theorem found_of_find? {files : Files} {module path : List Char} {directories names : List (List Char)}
    (h : (directories.flatMap fun above => names.map (modulePath module above)).find? files.isFile =
      some path) :
    ∃ above name, Found files module directories names above name ∧
      path = modulePath module above name := by
  induction directories with
  | nil => cases h
  | cons above directories ih =>
    rw [List.flatMap_cons, List.find?_append, List.find?_map] at h
    cases hname : names.find? (files.isFile ∘ modulePath module above) with
    | some name =>
      rw [hname] at h
      obtain ⟨hfile, first, others, hnames, hfirst⟩ := List.find?_eq_some_iff_append.1 hname
      refine ⟨above, name, .intro (List.nil_append _).symm hnames ?_ ?_ hfile,
        (Option.some.inj h).symm⟩
      · exact fun directory hdirectory => absurd hdirectory List.not_mem_nil
      · exact fun other hother => by simpa using hfirst other hother
    | none =>
      rw [hname] at h
      obtain ⟨found, name, @⟨nearer, further, _, _, hdirectories, hnames, hnearer, hfirst, hfile⟩,
        hpath⟩ := ih h
      have hlonger : above :: directories = (above :: nearer) ++ found :: further := by
        rw [hdirectories]
        rfl
      refine ⟨found, name, .intro hlonger hnames ?_ hfirst hfile, hpath⟩
      intro directory hdirectory other hother
      rcases List.mem_cons.1 hdirectory with rfl | hdirectory
      · simpa using List.find?_eq_none.1 hname other hother
      · exact hnearer directory hdirectory other hother

/-- An import behind a tilde means the first path of a file, or what any other import means. -/
theorem resolveStyle_cases (files : Files) (module : List Char) (file : String) (lang : Option String) :
    let directories := ancestors (parent file.toList)
    let names := candidateNames ((fileName? module).getD []) lang
    let name := String.ofList ('~' :: module)
    (∃ above name', Found files module directories names above name' ∧
      resolveStyle files name file lang = String.ofList (modulePath module above name')) ∨
    (∀ above ∈ directories, ∀ other ∈ names, files.isFile (modulePath module above other) = false) ∧
      resolveStyle files name file lang = relativeTo file name := by
  intro directories names name
  have hresolve : resolveStyle files name file lang =
      (((modulePaths module file.toList lang).find? files.isFile).map String.ofList).getD
        (relativeTo file name) := by
    unfold resolveStyle
    rw [String.toList_ofList, if_neg (by simp [isAbsolute])]
    dsimp only
    rw [moduleMark, if_pos rfl]
    cases (modulePaths module file.toList lang).find? files.isFile <;> rfl
  rw [modulePaths_eq] at hresolve
  cases hfind : (directories.flatMap fun above => names.map (modulePath module above)).find?
      files.isFile with
  | some path =>
    rw [hfind] at hresolve
    obtain ⟨above, name', hfound, rfl⟩ := found_of_find? hfind
    exact .inl ⟨above, name', hfound, hresolve⟩
  | none =>
    rw [hfind] at hresolve
    refine .inr ⟨fun above habove other hother => ?_, hresolve⟩
    have hnone := List.find?_eq_none.1 hfind (modulePath module above other)
      (List.mem_flatMap.2 ⟨above, habove, List.mem_map_of_mem hother⟩)
    simpa using hnone

/-! ### Inside and outside -/

theorem modulePath_of_isAbsolute {module name : List Char} (h : isAbsolute (parent module) = true)
    (above : List Char) : modulePath module above name = join (parent module) name := by
  unfold modulePath
  rw [join.eq_1 _ (parent module), if_pos h]

theorem liesIn_modulePath_iff {module name : List Char} (h : isAbsolute (parent module) = false)
    (hname : isAbsolute name = false) (above : List Char) :
    LiesIn (join above "node_modules".toList) (modulePath module above name) ↔
      ∃ left, Leaves (inner (parent module) ++ inner name) 0 left := by
  have hmodules : join above "node_modules".toList ≠ [] := join_ne_nil (.inr (by decide))
  have hparts : parts (modulePath module above name) =
      parts (join above "node_modules".toList) ++ (inner (parent module) ++ inner name) := by
    unfold modulePath
    rw [parts_join (join_ne_nil (.inl hmodules)) hname, parts_join hmodules h, List.append_assoc]
  unfold LiesIn
  rw [hparts]
  constructor
  · rintro ⟨rest, left, heq, hleaves⟩
    rw [List.append_cancel_left heq]
    exact ⟨left, hleaves⟩
  · rintro ⟨left, hleaves⟩
    exact ⟨_, left, rfl, hleaves⟩

/-- **Imports from installed modules**: the result is the first path of a file among those that are
looked at from the directories above, or, if there is none, what any other import means.  Such a path
lies in the `node_modules` of its directory just when nothing behind the tilde leads out of it, where
what is behind the tilde is not absolute; what is absolute is the same path for all directories. -/
theorem resolveStyle_module (files : Files) (module : List Char) (file : String)
    (lang : Option String) :
    ∃ directories names, Above (parent file.toList) directories ∧
      Names lang ((fileName? module).getD []) names ∧
      ((∃ above name, Found files module directories names above name ∧
          resolveStyle files (String.ofList ('~' :: module)) file lang =
            String.ofList (modulePath module above name)) ∨
        (∀ above ∈ directories, ∀ name ∈ names,
          files.isFile (modulePath module above name) = false) ∧
        resolveStyle files (String.ofList ('~' :: module)) file lang =
          relativeTo file (String.ofList ('~' :: module))) ∧
      ∀ above ∈ directories, ∀ name ∈ names,
        (isAbsolute (parent module) = true →
          modulePath module above name = join (parent module) name) ∧
        (isAbsolute (parent module) = false →
          (LiesIn (join above "node_modules".toList) (modulePath module above name) ↔
            ∃ left, Leaves (inner (parent module) ++ inner name) 0 left)) := by
  have hnames := names_candidateNames ((fileName? module).getD []) lang
  refine ⟨ancestors (parent file.toList), candidateNames ((fileName? module).getD []) lang,
    above_ancestors _, hnames, resolveStyle_cases files module file lang, ?_⟩
  intro above _ name hname
  refine ⟨fun h => modulePath_of_isAbsolute h above, fun h => ?_⟩
  exact liesIn_modulePath_iff h (hnames.isAbsolute_eq (notMem_fileName? module) hname) above

/-- An import that climbs out of `node_modules`, and one with an absolute path behind the tilde: both
mean files elsewhere. -/
theorem not_liesIn_climbingImport :
    let climbing : Files :=
      { directory := "/app"
        entries := [⟨["app".toList, "src".toList, "x.css".toList], .empty, false⟩,
          ⟨["app".toList, "src".toList, "node_modules".toList, "a".toList, "b.css".toList], .empty,
            false⟩] }
    let elsewhere : Files :=
      { directory := "/app", entries := [⟨["srv".toList, "x.css".toList], .empty, false⟩] }
    resolveStyle climbing "~../x" "src/A.vue" (some "css") = "src/node_modules/../x.css" ∧
      relativeTo "src/A.vue" "~../x" = "src/~../x" ∧
      (∀ above ∈ ancestors (parent "src/A.vue".toList),
        ¬ LiesIn (join above "node_modules".toList) "src/node_modules/../x.css".toList) ∧
      resolveStyle elsewhere "~/srv/x" "src/A.vue" (some "css") = "/srv/x.css" ∧
      relativeTo "src/A.vue" "~/srv/x" = "src/~/srv/x" ∧
      ∀ above ∈ ancestors (parent "src/A.vue".toList),
        ¬ LiesIn (join above "node_modules".toList) "/srv/x.css".toList := by
  intro climbing elsewhere
  refine ⟨by decide, by decide, fun above habove h => ?_, by decide, by decide,
    fun above habove h => ?_⟩
  · have houtside : ∀ above ∈ ancestors (parent "src/A.vue".toList),
        ¬ target [] (join above "node_modules".toList) <+:
          target [] "src/node_modules/../x.css".toList := by decide
    exact houtside above habove (h.target_prefix [])
  · have houtside : ∀ above ∈ ancestors (parent "src/A.vue".toList),
        ¬ target [] (join above "node_modules".toList) <+: target [] "/srv/x.css".toList := by decide
    exact houtside above habove (h.target_prefix [])

end SingleFile.Resolution
