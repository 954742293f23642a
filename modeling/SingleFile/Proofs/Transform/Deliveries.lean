import SingleFile.Proofs.Order.Stable
import SingleFile.Proofs.Transform.Run

/-!
# How custom blocks are delivered

A transformer gets the custom blocks of a kind at once.  `byKind_eq` says which groups there are: those
of the kinds in the order in which they first occur, each with all blocks of its kind as they stand in
the file.  `Deliveries` says this of what the transformers of a registry get, with the places of the
blocks, and `Runs` that a run processes it and nothing else.  `customCode_delivers` is the result: the
groups go to the first transformers for their kinds, and the outputs make the code.
-/

namespace SingleFile

variable {κ : Type}

/-! ### Items by a key -/

section Grouping

variable {α : Type}

theorem firstUsesAfter_concat [BEq α] [LawfulBEq α] (seen xs : List α) (x : α) :
    firstUsesAfter seen (xs ++ [x]) =
      firstUsesAfter seen xs ++ if x ∈ seen ∨ x ∈ xs then [] else [x] := by
  induction xs generalizing seen with
  | nil =>
    have hnil (seen : List α) : firstUsesAfter seen [] = [] := rfl
    rw [List.nil_append, hnil, firstUsesAfter, hnil, hnil]
    by_cases hx : x ∈ seen <;> simp [hx]
  | cons y xs ih =>
    rw [List.cons_append, firstUsesAfter, firstUsesAfter]
    split
    · next hy =>
      have hy : y ∈ seen := List.contains_iff_mem.1 hy
      have hseen : x ∈ seen ∨ x ∈ y :: xs ↔ x ∈ seen ∨ x ∈ xs := by
        rw [List.mem_cons]
        constructor
        · rintro (hx | rfl | hx)
          · exact .inl hx
          · exact .inl hy
          · exact .inr hx
        · exact Or.imp_right .inr
      simp only [ih, hseen]
    · have hseen : x ∈ y :: seen ∨ x ∈ xs ↔ x ∈ seen ∨ x ∈ y :: xs := by
        rw [List.mem_cons, List.mem_cons, or_left_comm, or_assoc]
      simp only [ih, hseen, List.cons_append]

/-- A last item is listed if it did not occur before. -/
theorem firstUses_concat [BEq α] [LawfulBEq α] (xs : List α) (x : α) :
    firstUses (xs ++ [x]) = firstUses xs ++ if x ∈ xs then [] else [x] := by
  have h := firstUsesAfter_concat [] xs x
  simp only [List.not_mem_nil, false_or] at h
  exact h

/-- The items with keys that are taken once each are all items with these keys. -/
theorem perm_flatMap_filter [DecidableEq α] {β : Type} (key : β → α) (xs : List β) {keys : List α}
    (h : keys.Nodup) : (keys.flatMap fun k => xs.filter fun x => key x = k).Perm
      (xs.filter fun x => key x ∈ keys) := by
  induction keys with
  | nil => simp
  | cons k keys ih =>
    obtain ⟨hk, hkeys⟩ := List.nodup_cons.1 h
    rw [List.flatMap_cons]
    -- as `k` is none of the others, the items split into those with `k` and those with another key
    have hpart : (xs.filter fun x => key x = k) ++ (xs.filter fun x => key x ∈ keys) =
        ((xs.filter fun x => key x ∈ k :: keys).filter fun x => key x = k) ++
          ((xs.filter fun x => key x ∈ k :: keys).filter fun x => !decide (key x = k)) := by
      rw [List.filter_filter, List.filter_filter]
      congr 1 <;> refine List.filter_congr fun x _ => ?_
      · by_cases hx : key x = k <;> simp [hx]
      · by_cases hx : key x = k
        · simp [hx, hk]
        · simp [hx]
    refine ((ih hkeys).append_left _).trans ?_
    rw [hpart]
    exact List.filter_append_perm _ _

end Grouping

/-! ### Groups of blocks -/

namespace Stage

/-- The blocks of each kind as they stand, the kinds in the order in which they first occur. -/
def groupsOf (blocks : List CustomBlock) : List (String × List CustomBlock) :=
  (firstUses (blocks.map (·.kind))).map fun k => (k, blocks.filter fun b => b.kind = k)

/-- A block goes to the end of its group, or starts one behind all others. -/
theorem addToKind_map (b : CustomBlock) (group : String → List CustomBlock) {kinds : List String}
    (h : kinds.Nodup) : addToKind b (kinds.map fun k => (k, group k)) =
      (kinds.map fun k => (k, group k ++ if b.kind = k then [b] else [])) ++
        if b.kind ∈ kinds then [] else [(b.kind, [b])] := by
  induction kinds with
  | nil => rfl
  | cons k kinds ih =>
    obtain ⟨hk, hkinds⟩ := List.nodup_cons.1 h
    rw [List.map_cons, List.map_cons, addToKind]
    by_cases hkind : k = b.kind
    · subst hkind
      have hrest : (kinds.map fun k => (k, group k ++ if b.kind = k then [b] else [])) =
          kinds.map fun k => (k, group k) := by
        refine List.map_congr_left fun k hmem => ?_
        have hne : b.kind ≠ k := fun heq => hk (heq ▸ hmem)
        rw [if_neg hne, List.append_nil]
      rw [if_pos rfl, if_pos rfl, if_pos List.mem_cons_self, List.append_nil, hrest]
    · have hne : b.kind ≠ k := fun heq => hkind heq.symm
      have hmem : b.kind ∈ k :: kinds ↔ b.kind ∈ kinds := by rw [List.mem_cons, or_iff_right hne]
      rw [if_neg hkind, ih hkinds, if_neg hne, List.append_nil, List.cons_append]
      simp only [hmem]

/-- One more block. -/
theorem addToKind_groupsOf (b : CustomBlock) (blocks : List CustomBlock) :
    addToKind b (groupsOf blocks) = groupsOf (blocks ++ [b]) := by
  have hgroup (k : String) : (blocks ++ [b]).filter (fun b => b.kind = k) =
      blocks.filter (fun b => b.kind = k) ++ if b.kind = k then [b] else [] := by
    rw [List.filter_append, List.filter_singleton]
    by_cases hk : b.kind = k <;> simp [hk]
  simp only [groupsOf, hgroup]
  have hkinds : (firstUses (blocks.map (·.kind))).Nodup := nodup_firstUsesAfter [] _
  rw [addToKind_map b _ hkinds, List.map_append, List.map_singleton, firstUses_concat, List.map_append]
  congr 1
  by_cases hmem : b.kind ∈ blocks.map (·.kind)
  · rw [if_pos (mem_firstUses.2 hmem), if_pos hmem, List.map_nil]
  · have hnone : blocks.filter (fun c => c.kind = b.kind) = [] := by
      rw [List.filter_eq_nil_iff]
      intro c hc hkind
      exact hmem (of_decide_eq_true hkind ▸ List.mem_map_of_mem hc)
    rw [if_neg (fun h => hmem (mem_firstUses.1 h)), if_neg hmem, List.map_singleton, hnone, if_pos rfl,
      List.nil_append]

/-- **The blocks are put into these groups.** -/
theorem byKind_eq (blocks : List CustomBlock) : byKind blocks = groupsOf blocks := by
  have hfold (before : List CustomBlock) :
      blocks.foldl (fun groups b => addToKind b groups) (groupsOf before) =
        groupsOf (before ++ blocks) := by
    induction blocks generalizing before with
    | nil => rw [List.append_nil, List.foldl_nil]
    | cons b blocks ih => rw [List.foldl_cons, addToKind_groupsOf, ih, List.append_assoc,
        List.singleton_append]
  exact hfold []

end Stage

/-! ### What transformers get -/

/-- Whether some pattern of a registry matches a kind. -/
def Registry.takes (registry : Registry κ) (kind : String) : Bool :=
  registry.entries.any fun e => e.1.occursIn kind

/-- What a transformer gets: the blocks of a kind, with their places among all custom blocks. -/
structure Delivery (κ : Type) where
  kind : String
  transformer : Transformer κ
  placed : List (CustomBlock × Nat)

def Delivery.input (cx : Context κ) (d : Delivery κ) : HookInput :=
  .customBlocks (d.placed.map (·.1)) optionsName cx.file cx.settings

/-- The transformers of a registry get these deliveries of some blocks.  There is one for each kind that
a pattern matches, in the order in which the kinds first appear, and it goes to the first transformer
whose pattern does.  It holds all blocks of the kind as they stand, and sorted by place all deliveries
are the blocks of these kinds. -/
structure Deliveries (registry : Registry κ) (blocks : List CustomBlock) (ds : List (Delivery κ)) :
    Prop where
  kinds : ∀ k, k ∈ ds.map (·.kind) ↔ k ∈ blocks.map (·.kind) ∧ registry.takes k = true
  ordered : (ds.map (·.kind)).Pairwise fun k k' =>
    (blocks.map (·.kind)).idxOf k < (blocks.map (·.kind)).idxOf k'
  first : ∀ d ∈ ds, ∃ before pattern behind,
    registry.entries = before ++ (pattern, d.transformer) :: behind ∧
      pattern.occursIn d.kind = true ∧ ∀ e ∈ before, e.1.occursIn d.kind = false
  grouped : ∀ d ∈ ds, d.placed = blocks.zipIdx.filter fun b => b.1.kind = d.kind
  whole : stableSort (fun a b => decide (a.2 ≤ b.2)) (ds.flatMap (·.placed)) =
    blocks.zipIdx.filter fun b => registry.takes b.1.kind

/-- A run in which each delivery is processed once, one after the other, with these outputs.  In between
there may be something to say. -/
inductive Runs (cx : Context κ) :
    List (Delivery κ) → List HookOutput → Session κ → Session κ → Prop where
  | done (s : Session κ) : Runs cx [] [] s s
  | said {ds : List (Delivery κ)} {outs : List HookOutput} {s s' : Session κ} (e : Event)
      (h : Runs cx ds outs { s with events := s.events ++ [e] } s') : Runs cx ds outs s s'
  | processed {d : Delivery κ} {ds : List (Delivery κ)} {out : HookOutput} {outs : List HookOutput}
      {s s₁ s' : Session κ}
      (hrun : (d.transformer.processAt cx.pace (d.input cx)).run s = (.ok out, s₁))
      (h : Runs cx ds outs s₁ s') : Runs cx (d :: ds) (out :: outs) s s'

namespace Registry

variable {registry : Registry κ} {blocks : List CustomBlock}

theorem isSome_find? (registry : Registry κ) (kind : String) :
    (registry.find? kind).isSome = registry.takes kind := by
  rw [find?, Option.isSome_map, takes, Bool.eq_iff_iff, List.find?_isSome, List.any_eq_true]

def delivery? (registry : Registry κ) (blocks : List CustomBlock) (kind : String) :
    Option (Delivery κ) :=
  (registry.find? kind).map fun t => ⟨kind, t, blocks.zipIdx.filter fun b => b.1.kind = kind⟩

def deliveries (registry : Registry κ) (blocks : List CustomBlock) : List (Delivery κ) :=
  (firstUses (blocks.map (·.kind))).filterMap (registry.delivery? blocks)

theorem map_kind_deliveries (registry : Registry κ) (blocks : List CustomBlock) :
    (registry.deliveries blocks).map (·.kind) =
      (firstUses (blocks.map (·.kind))).filter registry.takes := by
  rw [deliveries, List.map_filterMap, ← List.filterMap_eq_filter]
  congr 1
  funext k
  rw [delivery?, Option.map_map, Option.guard, ← isSome_find?]
  cases registry.find? k <;> rfl

theorem cases_of_mem_deliveries {d : Delivery κ} (hd : d ∈ registry.deliveries blocks) :
    registry.find? d.kind = some d.transformer ∧
      d.placed = blocks.zipIdx.filter fun b => b.1.kind = d.kind := by
  obtain ⟨k, -, hk⟩ := List.mem_filterMap.1 hd
  obtain ⟨t, ht, rfl⟩ := Option.map_eq_some_iff.1 hk
  exact ⟨ht, rfl⟩

/-- What is delivered are the blocks of all kinds that a pattern matches. -/
theorem perm_placed_deliveries (registry : Registry κ) (blocks : List CustomBlock) :
    ((registry.deliveries blocks).flatMap (·.placed)).Perm
      (blocks.zipIdx.filter fun b => registry.takes b.1.kind) := by
  have hplaced : (registry.deliveries blocks).flatMap (·.placed) =
      ((firstUses (blocks.map (·.kind))).filter registry.takes).flatMap fun k =>
        blocks.zipIdx.filter fun b => b.1.kind = k := by
    rw [← map_kind_deliveries, List.flatMap_map]
    exact List.flatMap_congr fun d hd => (cases_of_mem_deliveries hd).2
  have hkinds : (firstUses (blocks.map (·.kind))).Nodup := nodup_firstUsesAfter [] _
  rw [hplaced]
  refine (perm_flatMap_filter (·.1.kind) blocks.zipIdx (hkinds.filter _)).trans (.of_eq ?_)
  refine List.filter_congr fun b hb => ?_
  have hkind : b.1.kind ∈ blocks.map (·.kind) :=
    List.mem_map_of_mem (List.mem_of_getElem? (List.mem_zipIdx_iff_getElem?.1 hb))
  rw [Bool.eq_iff_iff, decide_eq_true_iff, List.mem_filter, mem_firstUses, and_iff_right hkind]

/-- Placed blocks that are sorted by place are in the order of the file. -/
theorem stableSort_placed {placed : List (CustomBlock × Nat)} {p : CustomBlock × Nat → Bool}
    (h : placed.Perm (blocks.zipIdx.filter p)) :
    stableSort (fun a b => decide (a.2 ≤ b.2)) placed = blocks.zipIdx.filter p := by
  have hplaces : (blocks.zipIdx.map Prod.snd).Pairwise (· < ·) := by
    rw [List.zipIdx_map_snd]
    exact List.pairwise_lt_range'
  have hfilter : (blocks.zipIdx.filter p).Pairwise fun a b => a.2 ≤ b.2 :=
    ((List.pairwise_map.1 hplaces).filter p).imp Nat.le_of_lt
  have hsort : (stableSort (fun a b => decide (a.2 ≤ b.2)) placed).Pairwise fun a b => a.2 ≤ b.2 := by
    refine (pairwise_stableSort ?_ ?_ placed).imp of_decide_eq_true
    · simp only [decide_eq_true_eq]
      exact fun a b => Nat.le_total a.2 b.2
    · simp only [decide_eq_true_eq]
      exact fun a b c => Nat.le_trans
  have hperm := (perm_stableSort (fun a b => decide (a.2 ≤ b.2)) placed).trans h
  -- the order is antisymmetric on these blocks only: two with the same place are the same block
  refine List.Perm.eq_of_pairwise ?_ hsort hfilter hperm
  intro a b ha hb hab hba
  have ha := List.mem_zipIdx_iff_getElem?.1 (List.mem_of_mem_filter (hperm.mem_iff.1 ha))
  have hb := List.mem_zipIdx_iff_getElem?.1 (List.mem_of_mem_filter hb)
  have hplace : a.2 = b.2 := Nat.le_antisymm hab hba
  rw [hplace, hb, Option.some.injEq] at ha
  exact Prod.ext ha.symm hplace

theorem deliveries_deliver (registry : Registry κ) (blocks : List CustomBlock) :
    Deliveries registry blocks (registry.deliveries blocks) where
  kinds k := by rw [map_kind_deliveries, List.mem_filter, mem_firstUses]
  ordered := by
    rw [map_kind_deliveries]
    exact (pairwise_firstUses _).filter _
  first d hd := by
    obtain ⟨e, he, htransformer⟩ := Option.map_eq_some_iff.1 (cases_of_mem_deliveries hd).1
    obtain ⟨hmatch, before, behind, hentries, hbefore⟩ := List.find?_eq_some_iff_append.1 he
    refine ⟨before, e.1, behind, ?_, hmatch, fun e he => by simpa using hbefore e he⟩
    rw [hentries, ← htransformer]
  grouped _ hd := (cases_of_mem_deliveries hd).2
  whole := stableSort_placed (perm_placed_deliveries registry blocks)

end Registry

/-! ### Runs -/

namespace Routine

variable {σ ε α : Type}

/-- Routines in turn that succeed are run from where the ones before have left off. -/
theorem run_inTurn_cons {p : Routine σ ε α} {ps : List (Routine σ ε α)} {a : α} {as : List α}
    {s s₁ s' : σ} (hp : p.run s = (.ok a, s₁)) (hps : (inTurn ps).run s₁ = (.ok as, s')) :
    (inTurn (p :: ps)).run s = (.ok (a :: as), s') := by
  show (p >>= fun a => inTurn ps >>= fun as => done (a :: as)).run s = _
  rw [run_bind, hp]
  show (inTurn ps >>= fun as => done (a :: as)).run s₁ = _
  rw [run_bind, hps]
  rfl

end Routine

namespace Runs

variable {cx : Context κ} {ds : List (Delivery κ)} {outs : List HookOutput} {s s' : Session κ}

theorem length_eq (h : Runs cx ds outs s s') : outs.length = ds.length := by
  induction h with
  | done s => rfl
  | said e _ ih => exact ih
  | processed _ _ ih => rw [List.length_cons, List.length_cons, ih]

end Runs

namespace Stage

variable {cx : Context κ}

theorem map_fst_placed (p : CustomBlock → Bool) (blocks : List CustomBlock) :
    (blocks.zipIdx.filter fun b => p b.1).map (·.1) = blocks.filter p := by
  have h : ((blocks.zipIdx.map (·.1)).filter p) = (blocks.zipIdx.filter (p ∘ (·.1))).map (·.1) :=
    List.filter_map
  rw [List.zipIdx_map_fst] at h
  exact h.symm

theorem run_kindCode_none {kind : String} (h : cx.registry.find? kind = none)
    (blocks : List CustomBlock) (s : Session κ) : (kindCode cx kind blocks).run s =
      (.ok none, { s with events := s.events ++
        [⟨.debug, "no transformer for custom block", [("file", cx.file), ("block_type", kind)]⟩] }) := by
  unfold kindCode
  rw [h]
  rfl

theorem run_kindCode_some {kind : String} {t : Transformer κ} {blocks : List CustomBlock}
    {s s' : Session κ} {out : HookOutput} (h : cx.registry.find? kind = some t)
    (hout : (t.processAt cx.pace (.customBlocks blocks optionsName cx.file cx.settings)).run s =
      (.ok out, s')) : (kindCode cx kind blocks).run s = (.ok (some out.code), s') := by
  unfold kindCode
  rw [h]
  show (cx.process t _ >>= fun out => Routine.done (some out.code)).run s = _
  rw [Routine.run_bind, Context.process, Work.act, Routine.run_mapError, hout]
  rfl

/-- The code that is made of the codes of the groups. -/
theorem run_customCode {blocks : List CustomBlock} {codes : List (Option String)}
    {outs : List HookOutput} {s s' : Session κ}
    (hrun : (Routine.inTurn ((firstUses (blocks.map (·.kind))).map fun k =>
      kindCode cx k (blocks.filter fun b => b.kind = k))).run s = (.ok codes, s'))
    (hcodes : codes.filterMap id = outs.map HookOutput.code) : (customCode cx blocks).run s =
      (.ok (if outs.isEmpty then none else some ("\n".intercalate (outs.map HookOutput.code))), s') := by
  have hgroups : ((byKind blocks).map fun g => kindCode cx g.1 g.2) =
      (firstUses (blocks.map (·.kind))).map fun k =>
        kindCode cx k (blocks.filter fun b => b.kind = k) := by
    rw [byKind_eq, groupsOf, List.map_map]
    rfl
  unfold customCode
  rw [hgroups, Routine.run_bind, hrun]
  dsimp only
  rw [hcodes]
  cases outs with
  | nil => rfl
  | cons out outs => rfl

/-- The groups of some kinds are processed as they are delivered. -/
theorem exists_runs (hsucceed : ∀ e ∈ cx.registry.entries, ∀ blocks s, ∃ out s',
      (e.2.processAt cx.pace (.customBlocks blocks optionsName cx.file cx.settings)).run s =
        (.ok out, s'))
    (blocks : List CustomBlock) (kinds : List String) (s : Session κ) : ∃ codes outs s',
      (Routine.inTurn (kinds.map fun k => kindCode cx k (blocks.filter fun b => b.kind = k))).run s =
        (.ok codes, s') ∧
      codes.filterMap id = outs.map HookOutput.code ∧
      Runs cx (kinds.filterMap (cx.registry.delivery? blocks)) outs s s' := by
  induction kinds generalizing s with
  | nil => exact ⟨[], [], s, rfl, rfl, .done s⟩
  | cons k kinds ih =>
    rw [List.filterMap_cons]
    cases ht : cx.registry.find? k with
    | none =>
      obtain ⟨codes, outs, s', hrun, hcodes, hruns⟩ := ih _
      refine ⟨none :: codes, outs, s',
        Routine.run_inTurn_cons (run_kindCode_none ht _ s) hrun, hcodes, ?_⟩
      rw [Registry.delivery?, ht]
      exact .said _ hruns
    | some t =>
      obtain ⟨e, he, rfl⟩ := Option.map_eq_some_iff.1 ht
      obtain ⟨out, s₁, hout⟩ := hsucceed e (List.mem_of_find?_eq_some he)
        (blocks.filter fun b => b.kind = k) s
      obtain ⟨codes, outs, s', hrun, hcodes, hruns⟩ := ih s₁
      refine ⟨some out.code :: codes, out :: outs, s',
        Routine.run_inTurn_cons (run_kindCode_some ht hout) hrun, ?_, ?_⟩
      · rw [List.filterMap_cons, hcodes]
        rfl
      · rw [Registry.delivery?, ht]
        have hinput := map_fst_placed (fun b => decide (b.kind = k)) blocks
        refine .processed ?_ hruns
        simp only [Delivery.input, hinput]
        exact hout

/-- **Custom blocks are delivered once, in groups and in order.** -/
theorem customCode_delivers (hsucceed : ∀ e ∈ cx.registry.entries, ∀ blocks s, ∃ out s',
      (e.2.processAt cx.pace (.customBlocks blocks optionsName cx.file cx.settings)).run s =
        (.ok out, s'))
    (blocks : List CustomBlock) (s : Session κ) : ∃ ds outs code s',
      Deliveries cx.registry blocks ds ∧ Runs cx ds outs s s' ∧
      (customCode cx blocks).run s = (.ok code, s') ∧
      code = (if outs.isEmpty then none else some ("\n".intercalate (outs.map HookOutput.code))) ∧
      (code = none ↔ ∀ b ∈ blocks, cx.registry.takes b.kind = false) := by
  obtain ⟨codes, outs, s', hrun, hcodes, hruns⟩ :=
    exists_runs hsucceed blocks (firstUses (blocks.map (·.kind))) s
  have hdeliver := Registry.deliveries_deliver cx.registry blocks
  refine ⟨_, outs, _, s', hdeliver, hruns, run_customCode hrun hcodes, rfl, ?_⟩
  have hnone : (if outs.isEmpty then none else some ("\n".intercalate (outs.map HookOutput.code))) =
      (none : Option String) ↔ cx.registry.deliveries blocks = [] := by
    rw [← List.length_eq_zero_iff, Registry.deliveries, ← hruns.length_eq, List.length_eq_zero_iff]
    cases outs <;> simp
  rw [hnone, ← List.map_eq_nil_iff (f := Delivery.kind), List.eq_nil_iff_forall_not_mem]
  simp only [hdeliver.kinds, not_and, Bool.not_eq_true, List.forall_mem_map]

end Stage

/-! ### Two transformers that count their calls -/

/-- What is in the custom blocks of an input, under a title. -/
def listOf (title : String) : HookInput → HookOutput
  | .customBlocks blocks .. => .text (title ++ ": " ++ ", ".intercalate (blocks.map (·.content)))
  | _ => .text title

def listing (title : String) : Transformer Nat :=
  { Transformer.bare { process := true } with
    process := fun input => .read fun s =>
      .write { s with own := s.own + 1 } (.done (listOf title input)) }

/-- The pattern of the second one matches what the first one gets as well. -/
def listingContext : Context Nat where
  file := "/app/Listed.vue"
  settings := {}
  options := {}
  registry := ⟨[("docs", "pages"), ("o", "rest")].filterMap fun e =>
    (Pattern.parse? e.1).map fun pattern => (pattern, listing e.2)⟩
  nameMap := ⟨[]⟩
  files := {}
  compilers := .builtIn
  pace := .blocking

def listedBlock (kind content : String) : CustomBlock where
  span := ⟨0, 0⟩
  contentSpan := ⟨0, 0⟩
  content
  attributes := []
  lang := none
  src := none
  map := none
  kind

/-- Blocks of three kinds in turn, one of which is nobody's. -/
def listedBlocks : List CustomBlock :=
  [listedBlock "todo" "a", listedBlock "docs" "b", listedBlock "i18n" "c", listedBlock "todo" "d",
    listedBlock "docs" "e"]

theorem customCode_delivers_listedBlocks :
    (∀ e ∈ listingContext.registry.entries, ∀ blocks s, ∃ out s',
      (e.2.processAt .blocking (.customBlocks blocks optionsName listingContext.file {})).run s =
        (.ok out, s')) ∧
    ∃ ds outs s', Deliveries listingContext.registry listedBlocks ds ∧
      Runs listingContext ds outs ⟨[], 0⟩ s' ∧
      (Stage.customCode listingContext listedBlocks).run ⟨[], 0⟩ =
        (.ok (some "rest: a, d\npages: b, e"), s') ∧
      s'.own = 2 ∧ "\n".intercalate (outs.map HookOutput.code) = "rest: a, d\npages: b, e" := by
  have hsucceed : ∀ e ∈ listingContext.registry.entries, ∀ blocks s, ∃ out s',
      (e.2.processAt .blocking (.customBlocks blocks optionsName listingContext.file {})).run s =
        (.ok out, s') := by
    intro e he blocks s
    obtain ⟨source, -, hsource⟩ := List.mem_filterMap.1 he
    obtain ⟨pattern, -, rfl⟩ := Option.map_eq_some_iff.1 hsource
    exact ⟨_, _, rfl⟩
  obtain ⟨ds, outs, code, s', hdeliver, hruns, hrun, hcode, -⟩ :=
    Stage.customCode_delivers hsucceed listedBlocks ⟨[], 0⟩
  have hcounted : ((Stage.customCode listingContext listedBlocks).run ⟨[], 0⟩).1.toOption =
      some (some "rest: a, d\npages: b, e") ∧
      ((Stage.customCode listingContext listedBlocks).run ⟨[], 0⟩).2.own = 2 := by
    decide +kernel
  rw [hrun] at hcounted
  obtain ⟨hmade, hown⟩ := hcounted
  have hmade : code = some "rest: a, d\npages: b, e" := Option.some.inj hmade
  refine ⟨hsucceed, ds, outs, s', hdeliver, hruns, hmade ▸ hrun, hown, ?_⟩
  rw [hmade] at hcode
  split at hcode
  · exact absurd hcode (by simp)
  · exact (Option.some.inj hcode).symm

end SingleFile
