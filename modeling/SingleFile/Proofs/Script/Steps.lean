import SingleFile.Script.Module

/-!
# The steps of reading a script

However a script is read, the state changes in few ways only (`Reading.Step`): problems are noted,
other things are allowed, and the reading goes on with the next token.  `Takes` says of a reader
that all its runs are made of such steps.
-/

namespace SingleFile.Script

namespace Reading

/-- The current token is the first sign of a regular expression, behind whose slash `cs` stands. -/
def OpensPattern (s : Reading) (cs : List Char) : Prop :=
  (s.token.lexeme = .sign "/" ∧ cs = s.rest) ∨ (s.token.lexeme = .sign "/=" ∧ cs = '=' :: s.rest)

/-- Where the reading goes on: behind the current token, or behind the piece of a template or the
regular expression of which it is the first sign. -/
inductive Resumes (s : Reading) : Nat → List Char → Prop
  | token : Resumes s s.token.stop s.rest
  | template : Resumes s (readTemplate s.token.stop s.rest).offset
      (readTemplate s.token.stop s.rest).rest
  | pattern {cs : List Char} (h : s.OpensPattern cs) :
      Resumes s (readPattern s.token.start (s.token.start + 1) cs).offset
        (readPattern s.token.start (s.token.start + 1) cs).rest

inductive Step : Reading → Reading → Prop
  | noted (s : Reading) (problems : List Nat) : Step s { s with problems }
  | allowed (s : Reading) (setting : Setting) : Step s { s with setting }
  | marked (s : Reading) (arrowStart : Option Nat) : Step s { s with arrowStart }
  | broken (s : Reading) (offset : Nat) :
      Step s { s with token := { s.token with lexeme := .broken offset } }
  | moved (s : Reading) {stop : Nat} {rest : List Char} (h : s.Resumes stop rest) (lastStart : Nat)
      (problems : List Nat) :
      Step s { s with
        token := (readToken false stop rest).1, rest := (readToken false stop rest).2.1
        lastStart, lastStop := stop, problems }

/-- The states that a state may change to. -/
inductive Steps : Reading → Reading → Prop
  | refl (s : Reading) : Steps s s
  | tail {s t u : Reading} (prior : Steps s t) (step : Step t u) : Steps s u

theorem Step.single {s t : Reading} (h : Step s t) : Steps s t := .tail (.refl s) h

theorem Steps.trans {s t u : Reading} (h : Steps s t) (g : Steps t u) : Steps s u := by
  induction g with
  | refl => exact h
  | tail _ step ih => exact .tail ih step

end Reading

open Reading

def lastState {α : Type} : EStateM.Result Nat Reading α → Reading
  | .ok _ s => s
  | .error _ s => s

/-- All runs of a reader are made of steps. -/
def Takes {α : Type} (p : Reader α) : Prop := ∀ s, Steps s (lastState (p s))

/-! ### Readers that are put together -/

section Readers

variable {α β : Type} {p : Reader α}

@[grind .]
theorem takes_pure (a : α) : Takes (pure a : Reader α) := fun s => .refl s

@[grind .]
theorem takes_throw (offset : Nat) : Takes (throw offset : Reader α) := fun s => .refl s

@[grind .]
theorem takes_get : Takes (get : Reader Reading) := fun s => .refl s

theorem takes_modify {f : Reading → Reading} (hf : ∀ s, Step s (f s)) :
    Takes (modify f : Reader Unit) := fun s => (hf s).single

/-- What goes on behind a run made of steps is made of steps. -/
theorem steps_bind {s : Reading} {f : α → Reader β} (hp : Steps s (lastState (p s)))
    (hf : ∀ a, Takes (f a)) : Steps s (lastState ((p >>= f) s)) := by
  show Steps s (lastState (EStateM.bind p f s))
  unfold EStateM.bind
  cases hrun : p s with
  | ok a t =>
    rw [hrun] at hp
    exact hp.trans (hf a t)
  | error offset t =>
    rw [hrun] at hp
    exact hp

@[grind ←]
theorem takes_bind {f : α → Reader β} (hp : Takes p) (hf : ∀ a, Takes (f a)) :
    Takes (p >>= f) := fun s => steps_bind (hp s) hf

theorem takes_ite {c : Prop} [Decidable c] {q : Reader α} (hp : Takes p) (hq : Takes q) :
    Takes (if c then p else q) := by
  split
  · exact hp
  · exact hq

theorem takes_ite_bind {c : Prop} [Decidable c] {p : Reader Unit} {f : Unit → Reader β}
    (hp : Takes p) (hf : Takes (f ())) : Takes (if c then p >>= f else f ()) :=
  takes_ite (takes_bind hp fun _ => hf) hf

/-- What changes the state first goes on from the changed one. -/
theorem steps_modify_bind {s : Reading} {f : Reading → Reading} {k : Unit → Reader β}
    (hf : Step s (f s)) (hk : Takes (k ())) : Steps s (lastState ((modify f >>= k) s)) :=
  hf.single.trans (hk (f s))

/-- What is read of the state is that of the state in which the reading goes on. -/
theorem steps_get_bind {s : Reading} {f : Reading → Reader β} (hf : Steps s (lastState (f s s))) :
    Steps s (lastState ((get >>= f) s)) := hf

/-- Where a reader starts with the current token, that is the one of the state. -/
theorem steps_token_bind {s : Reading} {f : Token → Reader β}
    (hf : Steps s (lastState (f s.token s))) : Steps s (lastState ((Reader.token >>= f) s)) := hf

theorem takes_get_bind {f : Reading → Reader β} (hf : ∀ s, Steps s (lastState (f s s))) :
    Takes (get >>= f) := fun s => steps_get_bind (hf s)

@[grind ←]
theorem takes_map {f : α → β} (hp : Takes p) : Takes (f <$> p) :=
  takes_bind hp fun _ => takes_pure _

@[grind ←]
theorem takes_tryCatch {f : Nat → Reader α} (hp : Takes p) (hf : ∀ offset, Takes (f offset)) :
    Takes (tryCatch p f) := by
  intro s
  have hfirst := hp s
  show Steps s (lastState (EStateM.tryCatch p f s))
  unfold EStateM.tryCatch
  cases hrun : p s with
  | ok a t =>
    rw [hrun] at hfirst
    exact hfirst
  | error offset t =>
    rw [hrun] at hfirst
    exact hfirst.trans (hf offset t)

@[grind ←]
theorem takes_forM {xs : List α} {f : α → Reader Unit} (hf : ∀ a, Takes (f a)) :
    Takes (xs.forM f) := by
  induction xs with
  | nil => exact takes_pure ()
  | cons a xs ih => exact takes_bind (hf a) fun _ => ih

namespace Reader

@[grind .]
theorem takes_token : Takes token := by
  unfold token
  grind

@[grind .]
theorem takes_start : Takes start := by
  unfold start
  grind

@[grind .]
theorem takes_lastStop : Takes lastStop := by
  unfold lastStop
  grind

@[grind .]
theorem takes_setting : Takes setting := by
  unfold setting
  grind

@[grind .]
theorem takes_note (offset : Nat) : Takes (note offset) := takes_modify fun s => .noted s _

@[grind .]
theorem takes_bump : Takes bump := takes_modify fun s => .moved s .token _ _

@[grind .]
theorem takes_peek : Takes peek := by
  unfold peek
  grind

@[grind .]
theorem takes_unexpected : Takes (unexpected : Reader α) := by
  unfold unexpected
  grind

@[grind ←]
theorem takes_within (change : Setting → Setting) (hp : Takes p) : Takes (within change p) := by
  have hset (f : Setting → Setting) :
      Takes (modify fun s => { s with setting := f s.setting } : Reader Unit) :=
    takes_modify fun s => .allowed s _
  refine takes_bind takes_get fun old => takes_bind (hset change) fun _ => ?_
  refine takes_bind (takes_tryCatch ?_ fun offset => ?_) fun r => ?_
  · exact takes_bind hp fun a => takes_bind (hset fun _ => old.setting) fun _ => takes_pure _
  · exact takes_bind (hset fun _ => old.setting) fun _ => takes_bind (takes_throw offset) fun _ =>
      takes_pure _
  · cases r <;> exact takes_pure _

@[grind .]
theorem takes_isSign (sign : String) : Takes (isSign sign) := by
  unfold isSign
  grind

@[grind .]
theorem takes_isWord (word : String) : Takes (isWord word) := by
  unfold isWord
  grind

@[grind .]
theorem takes_eatSign (sign : String) : Takes (eatSign sign) := by
  unfold eatSign
  grind

@[grind .]
theorem takes_eatWord (word : String) : Takes (eatWord word) := by
  unfold eatWord
  grind

@[grind .]
theorem takes_expectSign (sign : String) : Takes (expectSign sign) := by
  unfold expectSign
  grind

@[grind .]
theorem takes_expectWord (word : String) : Takes (expectWord word) := by
  unfold expectWord
  grind

@[grind .]
theorem takes_eatSemicolon : Takes eatSemicolon := by
  unfold eatSemicolon
  grind

@[grind .]
theorem takes_expectSemicolon : Takes expectSemicolon := by
  unfold expectSemicolon
  grind

@[grind .]
theorem takes_anyName : Takes anyName := by
  unfold anyName
  grind

@[grind .]
theorem takes_bindingName : Takes bindingName := by
  unfold bindingName
  grind

@[grind ←]
theorem takes_commaList (close : String) (fuel : Nat) (hp : Takes p) :
    Takes (commaList close p fuel) := by
  induction fuel with
  | zero => exact takes_unexpected
  | succ fuel ih =>
    unfold commaList
    grind

@[grind ←]
theorem takes_many {p : Reader (Option α)} (fuel : Nat) (hp : Takes p) : Takes (many p fuel) := by
  induction fuel with
  | zero => exact takes_unexpected
  | succ fuel ih =>
    unfold many
    grind

end Reader

end Readers

end SingleFile.Script
