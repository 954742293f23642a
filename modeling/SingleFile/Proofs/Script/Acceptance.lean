import SingleFile.Proofs.Script.Lexing
import SingleFile.Script.Module

/-!
# Readers that go on

`Reads` says of a reader that it goes from the first tokens of a text to some of those behind them,
without a problem, and what it gives on the way.  There is one lemma for each reader that the grammar
is made of, and `Reads.bind` puts them together.
-/

namespace SingleFile.Script

/-- A state of reading without problems, in front of some tokens. -/
structure Reading.Faces (r : Reading) (st : Setting) (ts : List Seen) : Prop where
  problems : r.problems = []
  setting : r.setting = st
  tokens : ∀ l afterBreak more, ts = (l, afterBreak) :: more →
    r.token.lexeme = l ∧ r.token.afterBreak = afterBreak ∧ Lexes r.rest more

/-- A reader goes on from some tokens to others, and what it gives has a property. -/
def Reads {α : Type} (st : Setting) (p : Reader α) (ts ts' : List Seen) (Q : α → Prop) : Prop :=
  ∀ r : Reading, r.Faces st ts → ∃ a r', p r = .ok a r' ∧ r'.Faces st ts' ∧ Q a

section Reads

variable {α β : Type} {st : Setting} {p : Reader α} {ts ts' ts'' : List Seen} {Q : α → Prop}
  {R : β → Prop} {l l' : Lexeme} {b b' : Bool}

theorem reads_pure {a : α} (h : Q a) : Reads st (pure a) ts ts Q :=
  fun r hr => ⟨a, r, rfl, hr, h⟩

theorem bind_of_ok {f : α → Reader β} {r r₁ : Reading} {a : α} (h : p r = .ok a r₁) :
    (p >>= f) r = f a r₁ := by
  show EStateM.bind p f r = _
  rw [EStateM.bind, h]

theorem Reads.bind {f : α → Reader β} (hp : Reads st p ts ts' Q)
    (hf : ∀ a, Q a → Reads st (f a) ts' ts'' R) : Reads st (p >>= f) ts ts'' R := by
  intro r hr
  obtain ⟨a, r₁, hrun, hr₁, ha⟩ := hp r hr
  obtain ⟨c, r₂, hrun₂, hr₂, hc⟩ := hf a ha r₁ hr₁
  exact ⟨c, r₂, (bind_of_ok hrun).trans hrun₂, hr₂, hc⟩

theorem Reads.imp {P : α → Prop} (h : Reads st p ts ts' P) (himp : ∀ a, P a → Q a) :
    Reads st p ts ts' Q := by
  intro r hr
  obtain ⟨a, r', hrun, hr', ha⟩ := h r hr
  exact ⟨a, r', hrun, hr', himp a ha⟩

/-- A branch whose condition does not hold. -/
theorem Reads.ite_false {c : Reader Bool} {x y : Reader α} (hc : Reads st c ts ts' (· = false))
    (hy : Reads st y ts' ts'' Q) : Reads st (c >>= fun a => if a then x else y) ts ts'' Q := by
  refine hc.bind fun a ha => ?_
  rw [ha, if_neg (by decide)]
  exact hy

/-- A branch whose condition holds. -/
theorem Reads.ite_true {c : Reader Bool} {x y : Reader α} (hc : Reads st c ts ts' (· = true))
    (hx : Reads st x ts' ts'' Q) : Reads st (c >>= fun a => if a then x else y) ts ts'' Q := by
  refine hc.bind fun a ha => ?_
  rw [ha, if_pos rfl]
  exact hx

theorem Reads.tryCatch {f : Nat → Reader α} (h : Reads st p ts ts' Q) :
    Reads st (tryCatch p f) ts ts' Q := by
  intro r hr
  obtain ⟨a, r', hrun, hr', ha⟩ := h r hr
  refine ⟨a, r', ?_, hr', ha⟩
  show EStateM.tryCatch p f r = _
  rw [EStateM.tryCatch, hrun]

theorem Reading.Faces.seen {r : Reading} (h : r.Faces st ((l, b) :: ts)) :
    r.token.lexeme = l ∧ r.token.afterBreak = b := by
  obtain ⟨hl, hb, -⟩ := h.tokens l b ts rfl
  exact ⟨hl, hb⟩

/-! ### The state -/

theorem reads_get : Reads st (get : Reader Reading) ts ts fun r => r.Faces st ts :=
  fun r hr => ⟨r, r, rfl, hr, hr⟩

theorem reads_modify {f : Reading → Reading} (h : ∀ r : Reading, r.Faces st ts → (f r).Faces st ts') :
    Reads st (modify f) ts ts' fun _ => True :=
  fun r hr => ⟨(), f r, rfl, h r hr, trivial⟩

namespace Reader

theorem reads_token : Reads st token ((l, b) :: ts) ((l, b) :: ts) fun t =>
    t.lexeme = l ∧ t.afterBreak = b :=
  reads_get.bind fun _ hr => reads_pure hr.seen

theorem reads_start : Reads st start ts ts fun _ => True :=
  fun r hr => ⟨r.token.start, r, rfl, hr, trivial⟩

theorem reads_lastStop : Reads st lastStop ts ts fun _ => True :=
  fun r hr => ⟨r.lastStop, r, rfl, hr, trivial⟩

theorem reads_setting : Reads st setting ts ts (· = st) :=
  fun r hr => ⟨r.setting, r, rfl, hr, hr.setting⟩

/-- The next token comes up. -/
theorem reads_bump : Reads st bump ((l, b) :: (l', b') :: ts) ((l', b') :: ts) fun _ => True := by
  refine reads_modify fun r hr => ?_
  obtain ⟨-, -, hrest⟩ := hr.tokens l b _ rfl
  cases hrest with
  | token h hmore =>
    obtain ⟨start, stop, hread⟩ := h r.token.stop
    rw [hread]
    refine ⟨by simpa using hr.problems, hr.setting, fun l afterBreak more heq => ?_⟩
    obtain ⟨hseen, rfl⟩ := List.cons.inj heq
    obtain ⟨rfl, rfl⟩ := Prod.mk.inj hseen
    exact ⟨rfl, rfl, hmore⟩

theorem reads_peek : Reads st peek ((l, b) :: (l', b') :: ts) ((l, b) :: (l', b') :: ts) fun t =>
    t.lexeme = l' ∧ t.afterBreak = b' := by
  refine reads_get.bind fun r hr => reads_pure ?_
  obtain ⟨-, -, hrest⟩ := hr.tokens l b _ rfl
  cases hrest with
  | token h hmore =>
    obtain ⟨start, stop, hread⟩ := h r.token.stop
    rw [hread]
    exact ⟨rfl, rfl⟩

theorem reads_isSign {s : String} :
    Reads st (isSign s) ((.sign s, b) :: ts) ((.sign s, b) :: ts) (· = true) :=
  reads_token.bind fun t ht => reads_pure (by rw [ht.1, decide_eq_true rfl])

theorem reads_isSign_other {s : String} (h : l ≠ .sign s) :
    Reads st (isSign s) ((l, b) :: ts) ((l, b) :: ts) (· = false) :=
  reads_token.bind fun t ht => reads_pure (by rw [ht.1, decide_eq_false h])

theorem reads_isWord_other {w : String} (h : l ≠ .word w false) :
    Reads st (isWord w) ((l, b) :: ts) ((l, b) :: ts) (· = false) :=
  reads_token.bind fun t ht => reads_pure (by rw [ht.1, decide_eq_false h])

theorem reads_eatSign {s : String} : Reads st (eatSign s) ((.sign s, b) :: (l', b') :: ts)
    ((l', b') :: ts) (· = true) :=
  reads_isSign.ite_true (reads_bump.bind fun _ _ => reads_pure rfl)

theorem reads_eatSign_other {s : String} (h : l ≠ .sign s) :
    Reads st (eatSign s) ((l, b) :: ts) ((l, b) :: ts) (· = false) :=
  (reads_isSign_other h).ite_false (reads_pure rfl)

theorem reads_eatWord_other {w : String} (h : l ≠ .word w false) :
    Reads st (eatWord w) ((l, b) :: ts) ((l, b) :: ts) (· = false) :=
  (reads_isWord_other h).ite_false (reads_pure rfl)

theorem reads_expectSign {s : String} : Reads st (expectSign s) ((.sign s, b) :: (l', b') :: ts)
    ((l', b') :: ts) fun _ => True :=
  reads_eatSign.ite_true (reads_pure trivial)

theorem reads_eatSemicolon : Reads st eatSemicolon ((.sign ";", b) :: (l', b') :: ts)
    ((l', b') :: ts) (· = true) := by
  refine reads_token.bind fun t ht => ?_
  simp only [ht.1]
  exact reads_bump.bind fun _ _ => reads_pure rfl

/-- No semicolon is needed at the end of a line. -/
theorem reads_eatSemicolon_break (h : l ≠ .sign ";") :
    Reads st eatSemicolon ((l, true) :: ts) ((l, true) :: ts) (· = true) := by
  refine reads_token.bind fun t ht => ?_
  obtain ⟨hl, hbreak⟩ := ht
  split
  · next hsign => exact absurd (hl.symm.trans hsign) h
  · exact reads_pure rfl
  · exact reads_pure rfl
  · exact reads_pure hbreak

theorem reads_within {change : Setting → Setting} (h : Reads (change st) p ts ts' Q) :
    Reads st (within change p) ts ts' Q := by
  intro r hr
  obtain ⟨a, r', hrun, hr', ha⟩ := h { r with setting := change r.setting }
    ⟨hr.problems, by rw [hr.setting], hr.tokens⟩
  refine ⟨a, { r' with setting := r.setting }, ?_, ⟨hr'.problems, hr.setting, hr'.tokens⟩, ha⟩
  have hset : (modify fun s => { s with setting := change s.setting } : Reader Unit) r =
      .ok () { r with setting := change r.setting } := rfl
  have hget : (get : Reader Reading) r = .ok r r := rfl
  unfold within
  rw [bind_of_ok hget, bind_of_ok hset]
  simp only [bind, EStateM.bind, tryCatchThe, MonadExceptOf.tryCatch, tryCatch, EStateM.tryCatch, hrun]
  rfl

end Reader

end Reads

end SingleFile.Script
