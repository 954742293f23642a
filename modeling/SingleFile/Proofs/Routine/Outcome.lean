import SingleFile.Proofs.Transform.Run

/-!
# Outcomes that do not depend on the state

`Routine.Ends` says something of the outcome of a routine whatever happens to the state between its
steps, and `Routine.Gives` that there is one outcome only; `FailsAs` and `Yields` say something of the
failures and of the values alone.  `Routine.Agree` compares two routines by
their outcomes, and `agree_bind` does so step by step.
-/

namespace SingleFile.Routine

variable {σ ε ε' α β γ δ : Type}

/-- Whether a routine ends like this, whatever the state is at each of its steps. -/
def Ends (P : Except ε α → Prop) : Routine σ ε α → Prop
  | done a => P (.ok a)
  | fail e => P (.error e)
  | read next => ∀ s, Ends P (next s)
  | write _ next => Ends P next
  | wait next => Ends P next

/-- Whether a routine has this outcome, whatever the state is at each of its steps. -/
def Gives (o : Except ε α) (p : Routine σ ε α) : Prop := p.Ends (· = o)

section Ends

variable {P Q : Except ε α → Prop} {p : Routine σ ε α}

theorem Ends.mono (h : p.Ends P) (hPQ : ∀ o, P o → Q o) : p.Ends Q := by
  induction p with
  | done a => exact hPQ _ h
  | fail e => exact hPQ _ h
  | read next ih => exact fun s => ih s (h s)
  | write s next ih => exact ih h
  | wait next ih => exact ih h

theorem ends_true (p : Routine σ ε α) : p.Ends fun _ => True := by
  induction p with
  | done a => trivial
  | fail e => trivial
  | read next ih => exact ih
  | write s next ih => exact ih
  | wait next ih => exact ih

theorem Ends.run (h : p.Ends P) (s : σ) : P (p.run s).1 := by
  induction p generalizing s with
  | done a => exact h
  | fail e => exact h
  | read next ih => exact ih s (h s) s
  | write t next ih => exact ih h t
  | wait next ih => exact ih h s

/-- A routine ends as its steps do. -/
theorem Ends.bind {f : α → Routine σ ε β} {Q : Except ε β → Prop} (h : p.Ends P)
    (hok : ∀ a, P (.ok a) → (f a).Ends Q) (herror : ∀ e, P (.error e) → Q (.error e)) :
    (p >>= f).Ends Q := by
  show (Routine.bind f p).Ends Q
  induction p with
  | done a => exact hok a h
  | fail e => exact herror e h
  | read next ih => exact fun s => ih s (h s)
  | write s next ih => exact ih h
  | wait next ih => exact ih h

theorem Gives.run {o : Except ε α} (h : p.Gives o) (s : σ) : (p.run s).1 = o := Ends.run h s

/-- There is some state, so an outcome is what is said of all outcomes. -/
theorem Gives.of_ends [Nonempty σ] {o : Except ε α} (h : p.Gives o) (hP : p.Ends P) : P o := by
  obtain ⟨s⟩ := ‹Nonempty σ›
  rw [← h.run s]
  exact hP.run s

theorem gives_done (a : α) : (done a : Routine σ ε α).Gives (.ok a) := rfl

theorem gives_fail (e : ε) : (fail e : Routine σ ε α).Gives (.error e) := rfl

theorem gives_ofExcept (o : Except ε α) : (ofExcept o : Routine σ ε α).Gives o := by
  cases o <;> rfl

theorem gives_mapError {f : ε → ε'} {o : Except ε α} (h : p.Gives o) :
    (p.mapError f).Gives (o.mapError f) := by
  induction p with
  | done a => exact congrArg (Except.mapError f) h
  | fail e => exact congrArg (Except.mapError f) h
  | read next ih => exact fun s => ih s (h s)
  | write s next ih => exact ih h
  | wait next ih => exact ih h

theorem gives_outcome {o : Except ε α} (h : p.Gives o) :
    (p.outcome : Routine σ ε' (Except ε α)).Gives (.ok o) := by
  induction p with
  | done a => exact congrArg Except.ok h
  | fail e => exact congrArg Except.ok h
  | read next ih => exact fun s => ih s (h s)
  | write s next ih => exact ih h
  | wait next ih => exact ih h

theorem gives_log {κ : Type} (e : Event) : (log e : Routine (Session κ) ε Unit).Gives (.ok ()) :=
  fun _ => rfl

/-- What comes after a routine that gives a value. -/
theorem Gives.bind_ok {f : α → Routine σ ε β} {a : α} {Q : Except ε β → Prop}
    (h : p.Gives (.ok a)) (hf : (f a).Ends Q) : (p >>= f).Ends Q := by
  apply Ends.bind h
  · intro b hb
    rw [Except.ok.inj hb]
    exact hf
  · intro e he
    cases he

theorem Gives.bind_error {f : α → Routine σ ε β} {e : ε} (h : p.Gives (.error e)) :
    (p >>= f).Gives (.error e) := by
  apply Ends.bind h
  · intro b hb
    cases hb
  · intro e' he
    exact congrArg Except.error (Except.error.inj he)

end Ends

def FailsAs (Q : ε → Prop) (p : Routine σ ε α) : Prop := p.Ends fun o => ∀ e, o = .error e → Q e

/-- A failure of two routines in turn is one of the first, or one of what follows its value. -/
theorem Gives.bind_failsAs {p : Routine σ ε α} {f : α → Routine σ ε β} {o : Except ε α}
    {Q : ε → Prop} (h : p.Gives o) (hok : ∀ a, p.Gives (.ok a) → (f a).FailsAs Q)
    (herror : ∀ e, p.Gives (.error e) → Q e) : (p >>= f).FailsAs Q := by
  cases o with
  | ok a => exact h.bind_ok (hok a h)
  | error e =>
    apply (Gives.bind_error h).mono
    rintro _ rfl e' ⟨⟩
    exact herror e h

def Yields (Q : α → Prop) (p : Routine σ ε α) : Prop := p.Ends fun o => ∀ a, o = .ok a → Q a

section Yields

variable {Q : α → Prop} {R : β → Prop} {p : Routine σ ε α} {f g : α → Routine σ ε β}

theorem yields_done {a : α} (h : Q a) : (done a : Routine σ ε α).Yields Q := by
  rintro _ ⟨⟩
  exact h

theorem yields_fail (e : ε) : (fail e : Routine σ ε α).Yields Q := fun _ he => nomatch he

theorem yields_true (p : Routine σ ε α) : p.Yields fun _ => True :=
  (ends_true p).mono fun _ _ _ _ => trivial

theorem yields_mapError {h : ε → ε'} (hp : p.Yields Q) : (p.mapError h).Yields Q := by
  induction p with
  | done a => exact yields_done (hp a rfl)
  | fail e => exact yields_fail (h e)
  | read next ih => exact fun s => ih s (hp s)
  | write s next ih => exact ih hp
  | wait next ih => exact ih hp

theorem yields_bind (hp : p.Yields Q) (hf : ∀ a, Q a → (f a).Yields R) : (p >>= f).Yields R :=
  Ends.bind hp (fun a ha => hf a (ha a rfl)) fun _ _ _ he => nomatch he

/-- What comes after a routine matters for its values only. -/
theorem Yields.bind_congr (hp : p.Yields Q) (hfg : ∀ a, Q a → f a = g a) : p >>= f = p >>= g := by
  show bind f p = bind g p
  induction p with
  | done a => exact hfg a (hp a rfl)
  | fail e => rfl
  | read next ih => exact congrArg Routine.read (funext fun s => ih s (hp s))
  | write s next ih => exact congrArg (Routine.write s) (ih hp)
  | wait next ih => exact congrArg Routine.wait (ih hp)

end Yields

/-! ### Two routines -/

/-- Two routines that fail alike, or give values in a relation. -/
def Agree (R : α → β → Prop) (p : Routine σ ε α) (q : Routine σ ε β) : Prop :=
  (∃ a b, R a b ∧ p.Gives (.ok a) ∧ q.Gives (.ok b)) ∨ ∃ e, p.Gives (.error e) ∧ q.Gives (.error e)

/-- Two routines that both fail, or give values in a relation. -/
def Meet (R : α → β → Prop) (p : Routine σ ε α) (q : Routine σ ε β) : Prop :=
  (∃ a b, R a b ∧ p.Gives (.ok a) ∧ q.Gives (.ok b)) ∨
    p.Ends (fun o => o.isOk = false) ∧ q.Ends fun o => o.isOk = false

section Agree

variable {R : α → β → Prop} {S : γ → δ → Prop} {p : Routine σ ε α} {q : Routine σ ε β}
  {f : α → Routine σ ε γ} {g : β → Routine σ ε δ}

theorem agree_done {a : α} {b : β} (h : R a b) : Agree R (done a : Routine σ ε α) (done b) :=
  .inl ⟨a, b, h, rfl, rfl⟩

theorem agree_fail (e : ε) : Agree R (fail e : Routine σ ε α) (fail e) := .inr ⟨e, rfl, rfl⟩

/-- A routine with one outcome agrees with itself. -/
theorem Gives.agree {p : Routine σ ε α} {o : Except ε α} (h : p.Gives o) : Agree Eq p p := by
  cases o with
  | ok a => exact .inl ⟨a, a, rfl, h, h⟩
  | error e => exact .inr ⟨e, h, h⟩

theorem Agree.exists_gives (h : Agree R p q) : ∃ o, p.Gives o := by
  rcases h with ⟨a, -, -, ha, -⟩ | ⟨e, he, -⟩
  · exact ⟨.ok a, ha⟩
  · exact ⟨.error e, he⟩

theorem Agree.eq_gives {p q : Routine σ ε α} (h : Agree Eq p q) : ∃ o, p.Gives o ∧ q.Gives o := by
  rcases h with ⟨a, b, rfl, ha, hb⟩ | ⟨e, hp, hq⟩
  · exact ⟨.ok a, ha, hb⟩
  · exact ⟨.error e, hp, hq⟩

theorem agree_of_gives {p q : Routine σ ε α} {o : Except ε α} (hp : p.Gives o) (hq : q.Gives o) :
    Agree Eq p q := by
  cases o with
  | ok a => exact .inl ⟨a, a, rfl, hp, hq⟩
  | error e => exact .inr ⟨e, hp, hq⟩

theorem Agree.flip {p q : Routine σ ε α} (h : Agree Eq p q) : Agree Eq q p := by
  obtain ⟨o, hp, hq⟩ := h.eq_gives
  exact agree_of_gives hq hp

theorem Agree.trans [Nonempty σ] {p q r : Routine σ ε α} (h : Agree Eq p q) (h' : Agree Eq q r) :
    Agree Eq p r := by
  obtain ⟨o, hp, hq⟩ := h.eq_gives
  obtain ⟨o', hq', hr⟩ := h'.eq_gives
  obtain rfl : o = o' := hq.of_ends hq'
  exact agree_of_gives hp hr

theorem Agree.mono {R' : α → β → Prop} (h : Agree R p q) (hR : ∀ a b, R a b → R' a b) :
    Agree R' p q := by
  rcases h with ⟨a, b, hab, ha, hb⟩ | herror
  · exact .inl ⟨a, b, hR a b hab, ha, hb⟩
  · exact .inr herror

/-- Routines agree if their steps do. -/
theorem agree_bind (h : Agree R p q)
    (hfg : ∀ a b, R a b → p.Gives (.ok a) → Agree S (f a) (g b)) :
    Agree S (p >>= f) (q >>= g) := by
  rcases h with ⟨a, b, hab, ha, hb⟩ | ⟨e, hp, hq⟩
  · rcases hfg a b hab ha with ⟨c, d, hcd, hc, hd⟩ | ⟨e, hp, hq⟩
    · exact .inl ⟨c, d, hcd, ha.bind_ok hc, hb.bind_ok hd⟩
    · exact .inr ⟨e, ha.bind_ok hp, hb.bind_ok hq⟩
  · exact .inr ⟨e, hp.bind_error, hq.bind_error⟩

theorem agree_mapError {f : ε → ε'} (h : Agree R p q) : Agree R (p.mapError f) (q.mapError f) := by
  rcases h with ⟨a, b, hab, ha, hb⟩ | ⟨e, hp, hq⟩
  · exact .inl ⟨a, b, hab, gives_mapError ha, gives_mapError hb⟩
  · exact .inr ⟨f e, gives_mapError hp, gives_mapError hq⟩

theorem Agree.meet (h : Agree R p q) : Meet R p q := by
  rcases h with hok | ⟨e, hp, hq⟩
  · exact .inl hok
  · refine .inr ⟨hp.mono ?_, hq.mono ?_⟩ <;> rintro o rfl <;> rfl

theorem meet_bind (h : Meet R p q) (hfg : ∀ a b, R a b → p.Gives (.ok a) → Meet S (f a) (g b)) :
    Meet S (p >>= f) (q >>= g) := by
  have herror {α β : Type} {e : ε} (h : (Except.error e : Except ε α).isOk = false) :
      (Except.error e : Except ε β).isOk = false := h
  rcases h with ⟨a, b, hab, ha, hb⟩ | ⟨hp, hq⟩
  · rcases hfg a b hab ha with ⟨c, d, hcd, hc, hd⟩ | ⟨hp, hq⟩
    · exact .inl ⟨c, d, hcd, ha.bind_ok hc, hb.bind_ok hd⟩
    · exact .inr ⟨ha.bind_ok hp, hb.bind_ok hq⟩
  · refine .inr ⟨hp.bind ?_ fun _ => herror, hq.bind ?_ fun _ => herror⟩ <;>
      · intro a ha
        cases ha

/-- What two runs show: a success on the one side is one on the other, with values in the relation. -/
theorem Meet.run (h : Meet R p q) (s s' : σ) :
    (∃ a b, R a b ∧ (p.run s).1 = .ok a ∧ (q.run s').1 = .ok b) ∨
      ∃ e e', (p.run s).1 = .error e ∧ (q.run s').1 = .error e' := by
  rcases h with ⟨a, b, hab, ha, hb⟩ | ⟨hp, hq⟩
  · exact .inl ⟨a, b, hab, ha.run s, hb.run s'⟩
  · have hp := hp.run s
    have hq := hq.run s'
    cases hp' : (p.run s).1 with
    | ok a =>
      rw [hp'] at hp
      cases hp
    | error e =>
      cases hq' : (q.run s').1 with
      | ok b =>
        rw [hq'] at hq
        cases hq
      | error e' => exact .inr ⟨e, e', rfl, rfl⟩

end Agree

end SingleFile.Routine
