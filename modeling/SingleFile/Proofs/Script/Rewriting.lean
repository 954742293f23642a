import SingleFile.Proofs.Script.Items

/-!
# What rewriting keeps

Whatever the parser accepts is compiled.  Only the keywords of declarations, or whole declarations,
are replaced, and each statement is copied as a whole, one behind the other (`Segment.Rewrites`,
`LaidOut.exists_cut`).  So the texts of the statements stand in the compiled code in their order
(`exists_compile_rewrites`).

They need not be statements of the compiled code any more.  A declaration that is replaced by nothing
does not end the statement before it, and a default export of a function without a name becomes a
statement that ends later than the declaration did: then two neighbours are read as one
(`not_keepsStatements_listedSource`).
-/

namespace SingleFile

/-- Of two ways to cut a text, the one that cuts it later adds to the first part of the other. -/
theorem exists_append_of_byteLength_le {a b c d : List Char} (h : a ++ b = c ++ d)
    (hle : byteLength a ≤ byteLength c) : ∃ m, c = a ++ m ∧ b = m ++ d := by
  rcases List.append_eq_append_iff.1 h with ⟨m, hc, hb⟩ | ⟨m, rfl, rfl⟩
  · exact ⟨m, hc, hb⟩
  · cases m with
    | nil => exact ⟨[], by simp, by simp⟩
    | cons x m =>
      have := x.utf8Size_pos
      simp at hle
      omega

namespace Script

open Cursor Segment

section Cuts

variable {script rest : List Char} {p n : Nat} (hrest : Before ⟨0, script⟩ ⟨p, rest⟩)
  (hn : Cuts script n) (hp : p ≤ n)

include hrest hn hp

/-- What is left of a script can be cut wherever the script can. -/
theorem Cuts.exists_append : ∃ a b, rest = a ++ b ∧ p + byteLength a = n ∧
    Before ⟨0, script⟩ ⟨n, b⟩ := by
  obtain ⟨c, hc, hcsize⟩ := hrest
  obtain ⟨b, d, hd, hdsize⟩ := hn
  dsimp only at hc hcsize hd hdsize
  obtain ⟨a, rfl, rfl⟩ := exists_append_of_byteLength_le (hc.symm.trans hd) (by omega)
  rw [byteLength_append] at hdsize
  exact ⟨a, b, rfl, by omega, c ++ a, hd, by rw [byteLength_append]; exact hdsize⟩

/-- So can a part of it that reaches as far. -/
theorem Cuts.exists_append_of_le {text back : List Char} (htext : rest = text ++ back)
    (hle : n ≤ p + byteLength text) : ∃ u v, text = u ++ v ∧ p + byteLength u = n := by
  obtain ⟨a, b, hab, hsize, -⟩ := Cuts.exists_append hrest hn hp
  obtain ⟨v, rfl, -⟩ := exists_append_of_byteLength_le (hab.symm.trans htext) (by omega)
  exact ⟨a, v, rfl, hsize⟩

end Cuts

/-! ### Statements -/

/-- The parts of a script that the statements of a module cover. -/
def statementSpans (items : List Item) : List Span :=
  items.filterMap fun
    | .statement span _ => some span
    | _ => none

theorem statementSpans_cons {item : Item} (h : item.isDeclaration = true) (items : List Item) :
    statementSpans (item :: items) = statementSpans items := by
  cases item with
  | statement span names => cases h
  | _ => rfl

/-- The texts of the statements of a module. -/
def statementTexts (script : List Char) (items : List Item) : List String :=
  (statementSpans items).map (textAt script)

/-- Texts stand in a text one behind the other. -/
def StandInOrder : List String → List Char → Prop
  | [], _ => True
  | t :: ts, cs => ∃ a b, cs = a ++ t.toList ++ b ∧ StandInOrder ts b

theorem StandInOrder.append {ts : List String} {cs : List Char} (h : StandInOrder ts cs)
    (front back : List Char) : StandInOrder ts (front ++ cs ++ back) := by
  induction ts generalizing cs front with
  | nil => trivial
  | cons t ts ih =>
    obtain ⟨a, b, rfl, hmore⟩ := h
    exact ⟨front ++ a, b ++ back, by simp, ih hmore []⟩

namespace Segment

/-- The parts of a script that spans cover are copied as a whole, one behind the other, by segments
that start at `offset`. -/
def CopiesSpans : Nat → List Span → List Segment → Prop
  | _, [], _ => True
  | offset, span :: spans, ss => ∃ front a t b back, ss = front ++ .copied (a ++ t ++ b) :: back ∧
      offset + byteLength (sources front ++ a) = span.start ∧
      span.start + byteLength t = span.stop ∧ CopiesSpans span.stop spans (.copied b :: back)

/-- What is copied by later segments is copied by all. -/
theorem CopiesSpans.prepend {offset n : Nat} {spans : List Span} {v : List Char}
    {back : List Segment} (h : CopiesSpans n spans (.copied v :: back)) (front : List Segment)
    (a : List Char) (hn : offset + byteLength (sources front ++ a) = n) :
    CopiesSpans offset spans (front ++ .copied (a ++ v) :: back) := by
  cases spans with
  | nil => trivial
  | cons span spans =>
    obtain ⟨inner, a', t, b, back', hss, hstart, hstop, hmore⟩ := h
    cases inner with
    | nil =>
      obtain ⟨hv, rfl⟩ := List.cons.inj hss
      obtain rfl := Segment.copied.inj hv
      refine ⟨front, a ++ a', t, b, back, by simp, ?_, hstop, hmore⟩
      simp [sources] at hn hstart ⊢
      omega
    | cons s inner =>
      obtain ⟨rfl, rfl⟩ := List.cons.inj hss
      refine ⟨front ++ .copied (a ++ v) :: inner, a', t, b, back', by simp, ?_, hstop, hmore⟩
      simp [sources, Segment.source] at hn hstart ⊢
      omega

/-- What is copied stands in the code in its order. -/
theorem CopiesSpans.standInOrder {script x : List Char} {spans : List Span} {ss : List Segment}
    (h : CopiesSpans (byteLength x) spans ss) (hscript : script = x ++ sources ss) :
    StandInOrder (spans.map (textAt script)) (outputs ss) := by
  induction spans generalizing x ss with
  | nil => trivial
  | cons span spans ih =>
    obtain ⟨front, a, t, b, back, rfl, hstart, hstop, hmore⟩ := h
    have hcut : script = (x ++ sources front ++ a) ++ t ++ (b ++ sources back) := by
      rw [hscript]
      simp [sources, Segment.source]
    have hbefore : byteLength (x ++ sources front ++ a) = span.start := by
      simp at hstart ⊢
      omega
    refine ⟨outputs front ++ a, b ++ outputs back, ?_, ?_⟩
    · rw [textAt, Span.text?_eq_some hcut hbefore hstop]
      simp [outputs, Segment.output]
    · have hstop' : byteLength (x ++ sources front ++ a ++ t) = span.stop := by
        rw [byteLength_append, hbefore, hstop]
      rw [← hstop'] at hmore
      exact ih hmore hcut

/-- The segments that are replaced are the parts of declarations that may be replaced. -/
def ReplacesHeads (offset : Nat) (items : List Item) (ss : List Segment) : Prop :=
  ∀ front old new back, ss = front ++ .replaced old new :: back →
    ∃ item ∈ items, item.isDeclaration = true ∧
      item.span.start = offset + byteLength (sources front) ∧
      item.headStop = offset + byteLength (sources front ++ old)

theorem ReplacesHeads.cons {offset : Nat} {items : List Item} {ss : List Segment}
    (h : ReplacesHeads offset items ss) (item : Item) : ReplacesHeads offset (item :: items) ss := by
  intro front old new back hss
  obtain ⟨x, hx, hrest⟩ := h front old new back hss
  exact ⟨x, List.mem_cons_of_mem item hx, hrest⟩

/-- A declaration whose part is replaced stands before the ones whose parts are replaced behind it. -/
theorem ReplacesHeads.cons_replaced {offset stop : Nat} {items : List Item} {ss : List Segment}
    (h : ReplacesHeads stop items ss) {item : Item} (hitem : item.isDeclaration = true)
    {before old new : List Char} (hstart : item.span.start = offset + byteLength before)
    (hstop : stop = item.span.start + byteLength old) (hhead : item.headStop = stop) :
    ReplacesHeads offset (item :: items) (.copied before :: .replaced old new :: ss) := by
  intro front gone made back hss
  match front with
  | [] => cases hss
  | [_] =>
    simp only [List.cons_append, List.nil_append, List.cons.injEq, Segment.replaced.injEq] at hss
    obtain ⟨rfl, ⟨rfl, rfl⟩, rfl⟩ := hss
    refine ⟨item, List.mem_cons_self, hitem, ?_, ?_⟩
    · simpa [sources, Segment.source] using hstart
    · simp [sources, Segment.source]
      omega
  | _ :: _ :: front =>
    simp only [List.cons_append, List.cons.injEq] at hss
    obtain ⟨rfl, rfl, rfl⟩ := hss
    obtain ⟨x, hx, hdeclaration, hxstart, hxstop⟩ := h front gone made back rfl
    refine ⟨x, List.mem_cons_of_mem item hx, hdeclaration, ?_, ?_⟩
    · simp [sources, Segment.source] at hxstart ⊢
      omega
    · simp [sources, Segment.source] at hxstop ⊢
      omega

end Segment

/-! ### Cutting -/

/-- An edit replaces the part of a declaration that may be replaced. -/
theorem range_of_editOf {script : List Char} {format : ModuleFormat} {n : Nat} {item : Item}
    {e : Edit} (h : editOf script format n item = some e) :
    item.isDeclaration = true ∧ e.range = ⟨item.span.start, item.headStop⟩ := by
  cases item with
  | statement span names => cases h
  | exportValue span start =>
    obtain rfl := Option.some.inj h
    cases format <;> exact ⟨rfl, rfl⟩
  | exportDefault span start name =>
    cases name with
    | none =>
      obtain rfl := Option.some.inj h
      cases format <;> exact ⟨rfl, rfl⟩
    | some name =>
      obtain rfl := Option.some.inj h
      exact ⟨rfl, rfl⟩
  | exportNamed span bindings source =>
    cases format with
    | ecmaScript => cases h
    | commonJS => cases source <;> (obtain rfl := Option.some.inj h; exact ⟨rfl, rfl⟩)
  | _ =>
    cases format with
    | ecmaScript => cases h
    | commonJS =>
      obtain rfl := Option.some.inj h
      exact ⟨rfl, rfl⟩

/-- The segments of what is left of a script at `p` copy it up to `n`, and from there on the parts
that spans cover. -/
def CopiesFrom (p n : Nat) (spans : List Span) (ss : List Segment) : Prop :=
  ∃ u v more, ss = .copied (u ++ v) :: more ∧ p + byteLength u = n ∧
    CopiesSpans n spans (.copied v :: more)

section CopiesFrom

variable {script rest : List Char} {p n m : Nat} {spans : List Span} {ss : List Segment}

/-- What is copied up to an offset is copied up to an earlier one, and from there on. -/
theorem CopiesFrom.exists_append (h : CopiesFrom p n spans ss)
    (hrest : Before ⟨0, script⟩ ⟨p, sources ss⟩) (hm : Cuts script m) (hp : p ≤ m) (hle : m ≤ n) :
    ∃ u t v more, ss = .copied (u ++ t ++ v) :: more ∧ p + byteLength u = m ∧
      m + byteLength t = n ∧ CopiesSpans n spans (.copied v :: more) := by
  obtain ⟨u, v, more, rfl, hu, hmore⟩ := h
  have hsources : sources (.copied (u ++ v) :: more) = u ++ (v ++ sources more) := by
    simp [sources, Segment.source]
  obtain ⟨u, t, rfl, hsize⟩ := Cuts.exists_append_of_le hrest hm hp hsources (by omega)
  rw [byteLength_append] at hu
  exact ⟨u, t, v, more, rfl, hsize, by omega, hmore⟩

theorem CopiesFrom.earlier (h : CopiesFrom p n spans ss)
    (hrest : Before ⟨0, script⟩ ⟨p, sources ss⟩) (hm : Cuts script m) (hp : p ≤ m) (hle : m ≤ n) :
    CopiesFrom p m spans ss := by
  obtain ⟨u, t, v, more, rfl, hu, ht, hmore⟩ := h.exists_append hrest hm hp hle
  refine ⟨u, t ++ v, more, by rw [List.append_assoc], hu, ?_⟩
  exact hmore.prepend [] t (by simpa [sources] using ht)

theorem CopiesFrom.span (h : CopiesFrom p n spans ss)
    (hrest : Before ⟨0, script⟩ ⟨p, sources ss⟩) (hm : Cuts script m) (hp : p ≤ m) (hle : m ≤ n) :
    CopiesFrom p m (⟨m, n⟩ :: spans) ss := by
  obtain ⟨u, t, v, more, rfl, hu, ht, hmore⟩ := h.exists_append hrest hm hp hle
  refine ⟨u, t ++ v, more, by rw [List.append_assoc], hu, ?_⟩
  exact ⟨[], [], t, v, more, rfl, by simp [sources], ht, hmore⟩

end CopiesFrom

/-- A script whose items stand one behind the other can be cut: the statements are copied, and only
declarations are replaced. -/
theorem LaidOut.exists_cut {script : List Char} {n : Nat} {items : List Item}
    (h : LaidOut script n items) (hn : Cuts script n) {p : Nat} {rest : List Char}
    (hrest : Before ⟨0, script⟩ ⟨p, rest⟩) (hp : p ≤ n) (format : ModuleFormat) (k : Nat) :
    ∃ ss, cut p (edits script format k items) rest = some ss ∧
      CopiesFrom p n (statementSpans items) ss ∧ ReplacesHeads p items ss := by
  induction h generalizing p rest k with
  | nil n =>
    obtain ⟨u, v, rfl, hsize, -⟩ := Cuts.exists_append hrest hn hp
    refine ⟨_, rfl, ⟨u, v, [], rfl, hsize, trivial⟩, ?_⟩
    intro front old new back hss
    cases front <;> simp at hss
  | @cons n start stop item items le placed more ih =>
    have hspan := placed.span
    have hstart : item.span.start = start := congrArg Span.start hspan
    have hle := placed.start_le
    have hle' := placed.closes
    rw [edits]
    generalize (if item.takesModule then k + 1 else k) = next
    cases hedit : editOf script format k item with
    | none =>
      obtain ⟨ss, hcut, hcopied, hreplaced⟩ := ih placed.cutsStop hrest (by omega) next
      have hss : Before ⟨0, script⟩ ⟨p, sources ss⟩ := by
        rw [sources_of_cut hcut]
        exact hrest
      refine ⟨ss, hcut, ?_, hreplaced.cons item⟩
      cases item with
      | statement span names =>
        obtain rfl : span = ⟨start, stop⟩ := hspan
        exact (hcopied.span hss placed.cutsStart (by omega) (by omega)).earlier hss hn hp le
      | _ => exact hcopied.earlier hss hn hp (by omega)
    | some e =>
      obtain ⟨hdeclaration, hrange⟩ := range_of_editOf hedit
      rw [hstart] at hrange
      obtain ⟨before, rest₁, rfl, hbefore, hrest₁⟩ :=
        Cuts.exists_append hrest placed.cutsStart (by omega)
      obtain ⟨old, rest₂, rfl, hold, hrest₂⟩ := Cuts.exists_append hrest₁ placed.cutsHead hle
      obtain ⟨ss, hcut, ⟨u, v, more, rfl, hu, hmore⟩, hreplaced⟩ :=
        ih placed.cutsStop hrest₂ hle' next
      obtain ⟨u₀, a, rfl, hu₀⟩ := Cuts.exists_append_of_le hrest hn hp rfl (by omega)
      rw [byteLength_append] at hbefore
      let new := e.text.toList ++ old.filter (· = '\n')
      refine ⟨.copied (u₀ ++ a) :: .replaced old new :: .copied (u ++ v) :: more, ?_, ?_, ?_⟩
      · refine cut_cons_eq_some_iff.2 ⟨u₀ ++ a, old, rest₂, .copied (u ++ v) :: more, rfl, ?_⟩
        rw [hrange, byteLength_append]
        exact ⟨by omega, by omega, hcut, rfl⟩
      · refine ⟨u₀, a, _, rfl, hu₀, ?_⟩
        rw [statementSpans_cons hdeclaration]
        refine hmore.prepend [.copied a, .replaced old new] u ?_
        simp [sources, Segment.source]
        omega
      · refine hreplaced.cons_replaced hdeclaration ?_ ?_ rfl
        · rw [byteLength_append]
          omega
        · omega

/-! ### Compiling -/

/-- What the segments of a script have to do with its items: the parts of declarations are replaced,
and the statements are copied. -/
structure Segment.Rewrites (script : List Char) (items : List Item) (ss : List Segment) : Prop where
  source : sources ss = script
  replaced : ∀ front old new back, ss = front ++ .replaced old new :: back → old ≠ [] ∧
    ∃ item ∈ items, item.isDeclaration = true ∧ item.span.start = byteLength (sources front) ∧
      byteLength (sources front ++ old) ≤ item.span.stop
  copied : CopiesSpans 0 (statementSpans items) ss

/-- A script that the parser accepts is divided into segments. -/
theorem exists_divides {source : String} {items : List Item} (h : parse source = .ok items)
    (format : ModuleFormat) : ∃ ss footer, Divides format source ss footer ∧
      Rewrites source.toList items ss := by
  have hlaid := laidOut_parse h
  have hstart : Before ⟨0, source.toList⟩ ⟨0, source.toList⟩ := .refl _
  obtain ⟨ss, hcut, ⟨u, v, more, rfl, hu, hmore⟩, hreplaced⟩ :=
    hlaid.exists_cut ⟨_, hstart⟩ hstart (Nat.le_refl 0) format 1
  refine ⟨_, _, ⟨items, h, hcut, rfl⟩, sources_of_cut hcut, fun front old new back hss => ?_, ?_⟩
  · obtain ⟨item, hitem, hdeclaration, hfrom, hhead⟩ := hreplaced front old new back hss
    obtain ⟨start, stop, placed⟩ := hlaid.exists_placed hitem
    have hopens := placed.opens hdeclaration
    have hcloses := placed.closes
    have hstart : item.span.start = start := congrArg Span.start placed.span
    have hstop : item.span.stop = stop := congrArg Span.stop placed.span
    refine ⟨?_, item, hitem, hdeclaration, by omega, by omega⟩
    rintro rfl
    rw [List.append_nil] at hhead
    omega
  · obtain rfl : u = [] := by
      cases u with
      | nil => rfl
      | cons c u =>
        have := c.utf8Size_pos
        simp at hu
        omega
    exact hmore

/-- Cutting divides a script in one way. -/
theorem Divides.rewrites {format : ModuleFormat} {source : String} {ss : List Segment}
    {footer : List String} (h : Divides format source ss footer) :
    ∃ items, parse source = .ok items ∧ Rewrites source.toList items ss := by
  obtain ⟨items, hparse, hcut, rfl⟩ := h
  obtain ⟨ss', footer, ⟨items', hparse', hcut', -⟩, hrewrites⟩ := exists_divides hparse format
  obtain rfl := Except.ok.inj (hparse.symm.trans hparse')
  obtain rfl := Option.some.inj (hcut.symm.trans hcut')
  exact ⟨items, hparse, hrewrites⟩

/-- What is replaced starts with a character of the script. -/
theorem Segment.Replaces.exists_source {format : ModuleFormat} {source : String} {ss : List Segment}
    {footer : List String} {before made : List Char} {c : Char} (h : Replaces ss before made c)
    (hdivides : Divides format source ss footer) : ∃ d, before ++ [d] <+: source.toList := by
  obtain ⟨items, -, hrewrites⟩ := hdivides.rewrites
  obtain ⟨front, old, new, back, rfl, rfl, -⟩ := h
  obtain ⟨d, old, rfl⟩ := List.exists_cons_of_ne_nil (hrewrites.replaced _ _ _ _ rfl).1
  exact ⟨d, old ++ sources back, by rw [← hrewrites.source]; simp [sources, Segment.source]⟩

/-- A script that the parser accepts is compiled.  Only parts of its declarations are replaced, and
the texts of its statements stand in the code in their order, each copied from its own place. -/
theorem exists_compile_rewrites {source : String} {items : List Item}
    (h : parse source = .ok items) (format : ModuleFormat) (file : String) :
    ∃ made ss footer, compile format file source = .ok made ∧
      made.code.toList = front format ++ outputs ss ++ footer ∧
      Rewrites source.toList items ss ∧
      StandInOrder (statementTexts source.toList items) made.code.toList := by
  obtain ⟨ss, footer, hdivides, hrewrites⟩ := exists_divides h format
  refine ⟨_, ss, _, compile_eq_ok_iff.2 ⟨ss, footer, hdivides, rfl⟩,
    code_assemble format file source ss footer, hrewrites, ?_⟩
  have hinOrder : StandInOrder (statementTexts source.toList items) (outputs ss) :=
    CopiesSpans.standInOrder (x := []) hrewrites.copied hrewrites.source.symm
  rw [code_assemble]
  exact hinOrder.append _ _

/-- A script with a statement before and a statement behind an export clause without semicolon. -/
def listedSource : String := "let x = f\nexport \x7b x \x7d\n(y)\n"

def listedItems : List Item :=
  [.statement ⟨0, 9⟩ [⟨"x", ⟨4, 5⟩⟩], .exportNamed ⟨10, 22⟩ [.named ⟨19, 20⟩ none] none,
    .statement ⟨23, 26⟩ []]

theorem parse_listedSource : parse listedSource = .ok listedItems := by
  decide +kernel

theorem exists_compile_rewrites_listedSource : parse listedSource = .ok listedItems ∧
    ∃ made ss footer, compile .commonJS "/app/A.vue" listedSource = .ok made ∧
      made.code.toList = front .commonJS ++ outputs ss ++ footer ∧
      Rewrites listedSource.toList listedItems ss ∧
      StandInOrder (statementTexts listedSource.toList listedItems) made.code.toList :=
  ⟨parse_listedSource, exists_compile_rewrites parse_listedSource .commonJS "/app/A.vue"⟩

/-! ### Statements that are joined -/

/-- The statements of a script are still there in the code made of it: it is a script too, and they
are among its statements, with the same texts in the same order. -/
def KeepsStatements (source code : String) : Prop :=
  ∃ items kept, parse source = .ok items ∧ parse code = .ok kept ∧
    (statementTexts source.toList items).Sublist (statementTexts code.toList kept)

def statements? (script : String) : Option (List String) :=
  (parse script).toOption.map (statementTexts script.toList)

theorem statements?_eq {script : String} {items : List Item} (h : parse script = .ok items) :
    statements? script = some (statementTexts script.toList items) := by
  rw [statements?, h]
  rfl

/-- Without the semicolon that the export clause does not leave behind, its neighbours are one
statement. -/
theorem not_keepsStatements_listedSource :
    ∃ made, compile .commonJS "/app/A.vue" listedSource = .ok made ∧
      ¬ KeepsStatements listedSource made.code := by
  have hstatements : statements? listedSource = some ["let x = f", "(y)"] := by decide +kernel
  have hcompiled : (compiledText? .commonJS listedSource).any (fun cs =>
      decide (statements? (String.ofList cs) = some
        ["\"use strict\";", "Object.defineProperty(exports, \"__esModule\", \x7b value: true \x7d);",
          "let x = f\n\n(y)", "exports.x = x;"])) = true := by decide +kernel
  obtain ⟨made, hmade, hjoined⟩ := exists_compile_of_any hcompiled "/app/A.vue"
  refine ⟨made, hmade, ?_⟩
  rintro ⟨items, kept, hitems, hkept, hsublist⟩
  have hjoined := of_decide_eq_true hjoined
  rw [String.ofList_toList, statements?_eq hkept] at hjoined
  rw [statements?_eq hitems] at hstatements
  rw [Option.some.inj hjoined, Option.some.inj hstatements] at hsublist
  revert hsublist
  decide

end Script

end SingleFile
