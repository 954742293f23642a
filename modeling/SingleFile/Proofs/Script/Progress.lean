import SingleFile.Proofs.Script.GrammarSteps
import SingleFile.Proofs.Script.Tokens

/-!
# Reading goes on

Tokens are read one behind the other, and no step of the grammar goes back (`Reading.Steps.sound`).
What a reader has read ends between two characters of the script, and so does what stands before the
current token (`Reading.Sound`).
-/

namespace SingleFile.Script

open Cursor

/-- An offset stands between two characters of a script, or at one of its ends. -/
def Cuts (script : List Char) (n : Nat) : Prop := ∃ rest, Before ⟨0, script⟩ ⟨n, rest⟩

namespace Reading

/-- Where the reading of a script stands: `behind` is left behind the token before the current one,
and `front` from the current one on. -/
structure Stands (script behind front : List Char) (s : Reading) : Prop where
  last : Before ⟨0, script⟩ ⟨s.lastStop, behind⟩
  start : Before ⟨s.lastStop, behind⟩ ⟨s.token.start, front⟩
  stop : Before ⟨s.token.start, front⟩ ⟨s.token.stop, s.rest⟩
  word : ∀ w e, s.token.lexeme = .word w e → w ≠ "" → s.token.start < s.token.stop
  sign : ∀ x, s.token.lexeme = .sign x →
    Moved ⟨s.token.start, front⟩ x.toList ⟨s.token.stop, s.rest⟩

/-- What holds of the state while a script is read: the current token starts where the one before it
ends or later, and ends where it starts or later, a word later, all between characters. -/
def Sound (script : List Char) (s : Reading) : Prop := ∃ behind front, s.Stands script behind front

section Sound

variable {script : List Char} {s : Reading} (hs : s.Sound script)

include hs

theorem Sound.start : s.lastStop ≤ s.token.start := by
  obtain ⟨behind, front, hs⟩ := hs
  exact hs.start.le

theorem Sound.stop : s.token.start ≤ s.token.stop := by
  obtain ⟨behind, front, hs⟩ := hs
  exact hs.stop.le

theorem Sound.word {w : String} {e : Bool} (h : s.token.lexeme = .word w e) (hw : w ≠ "") :
    s.token.start < s.token.stop := by
  obtain ⟨behind, front, hs⟩ := hs
  exact hs.word w e h hw

theorem Sound.cuts_lastStop : Cuts script s.lastStop := by
  obtain ⟨behind, front, hs⟩ := hs
  exact ⟨behind, hs.last⟩

theorem Sound.cuts_start : Cuts script s.token.start := by
  obtain ⟨behind, front, hs⟩ := hs
  exact ⟨front, hs.last.trans hs.start⟩

end Sound

theorem sound_readToken {script behind rest : List Char} {offset : Nat} {s : Reading}
    (afterBreak : Bool) (htoken : s.token = (readToken afterBreak offset rest).1)
    (hrest : s.rest = (readToken afterBreak offset rest).2.1)
    (hlast : Before ⟨0, script⟩ ⟨s.lastStop, behind⟩)
    (hfrom : Before ⟨s.lastStop, behind⟩ ⟨offset, rest⟩) : s.Sound script := by
  have htaken := Taken.reads_takeToken (skipGap .space afterBreak offset rest).offset
    (skipGap .space afterBreak offset rest).rest
  refine ⟨behind, (skipGap .space afterBreak offset rest).rest, hlast, ?_, ?_, ?_, ?_⟩
  · rw [htoken]
    exact hfrom.trans (before_skipGap _ _ _ _)
  · rw [htoken, hrest]
    exact htaken.before
  · rw [htoken]
    exact htaken.word
  · rw [htoken, hrest]
    exact htaken.sign

variable {script : List Char} {s t : Reading}

/-- The reading goes on behind where the current token starts. -/
theorem Resumes.before {behind front : List Char} (hs : s.Stands script behind front) {stop : Nat}
    {rest : List Char} (h : s.Resumes stop rest) :
    Before ⟨s.token.start, front⟩ ⟨stop, rest⟩ := by
  cases h with
  | token => exact hs.stop
  | template => exact hs.stop.trans (before_readTemplate _ _)
  | @pattern cs h =>
    refine Before.trans ?_ (before_readPattern _ _ _)
    rcases h with ⟨hsign, rfl⟩ | ⟨hsign, rfl⟩
    · obtain rfl : front = '/' :: s.rest := (hs.sign _ hsign).1
      exact .over_cons (.refl _) rfl
    · obtain rfl : front = '/' :: '=' :: s.rest := (hs.sign _ hsign).1
      exact .over_cons (.refl _) rfl

/-- A state stands as far in the script as another one, or further. -/
structure After (s t : Reading) : Prop where
  lastStop : s.lastStop ≤ t.lastStop
  start : s.token.start ≤ t.token.start

theorem After.refl (s : Reading) : s.After s := ⟨Nat.le_refl _, Nat.le_refl _⟩

theorem After.trans {u : Reading} (h : s.After t) (g : t.After u) : s.After u :=
  ⟨Nat.le_trans h.lastStop g.lastStop, Nat.le_trans h.start g.start⟩

/-- A step goes on in the script. -/
theorem Step.sound (h : Step s t) (hs : s.Sound script) : t.Sound script ∧ s.After t := by
  obtain ⟨behind, front, hs⟩ := hs
  cases h with
  | noted | allowed | marked =>
    exact ⟨⟨behind, front, hs.last, hs.start, hs.stop, hs.word, hs.sign⟩, Nat.le_refl _,
      Nat.le_refl _⟩
  | broken =>
    exact ⟨⟨behind, front, hs.last, hs.start, hs.stop, by simp, by simp⟩, Nat.le_refl _,
      Nat.le_refl _⟩
  | moved h =>
    have hbefore := h.before hs
    have hlast := hs.last.trans (hs.start.trans hbefore)
    refine ⟨sound_readToken false rfl rfl hlast (.refl _), ?_, ?_⟩
    · exact (hs.start.trans hbefore).le
    · exact (hbefore.trans (before_skipGap _ _ _ _)).le

/-- Reading goes on in the script. -/
theorem Steps.sound (h : Steps s t) (hs : s.Sound script) : t.Sound script ∧ s.After t := by
  induction h with
  | refl => exact ⟨hs, .refl s⟩
  | tail _ step ih =>
    obtain ⟨hmiddle, hafter⟩ := ih
    obtain ⟨hlast, hafter'⟩ := step.sound hmiddle
    exact ⟨hlast, hafter.trans hafter'⟩

end Reading

open Reading

/-! ### Runs -/

section Runs

variable {script : List Char} {α β : Type} {s t : Reading} {p : Reader α}

theorem bind_eq_ok {f : α → Reader β} {b : β} (h : (p >>= f) s = .ok b t) :
    ∃ a s₁, p s = .ok a s₁ ∧ f a s₁ = .ok b t := by
  change EStateM.bind p f s = _ at h
  unfold EStateM.bind at h
  cases hp : p s with
  | ok a s₁ =>
    rw [hp] at h
    exact ⟨a, s₁, rfl, h⟩
  | error offset s₁ =>
    rw [hp] at h
    cases h

theorem tryCatch_eq_ok {f : Nat → Reader α} {a : α} (h : tryCatch p f s = .ok a t) :
    p s = .ok a t ∨ ∃ offset u, p s = .error offset u ∧ f offset u = .ok a t := by
  change EStateM.tryCatch p f s = _ at h
  unfold EStateM.tryCatch at h
  cases hrun : p s with
  | ok b u =>
    rw [hrun] at h
    exact .inl h
  | error offset u =>
    rw [hrun] at h
    exact .inr ⟨offset, u, rfl, h⟩

theorem Takes.sound (hp : Takes p) (hs : s.Sound script) {a : α} (h : p s = .ok a t) :
    t.Sound script ∧ s.After t := by
  have hsteps := hp s
  rw [h] at hsteps
  exact hsteps.sound hs

theorem Takes.sound_error (hp : Takes p) (hs : s.Sound script) {offset : Nat}
    (h : p s = .error offset t) : t.Sound script ∧ s.After t := by
  have hsteps := hp s
  rw [h] at hsteps
  exact hsteps.sound hs

end Runs

end SingleFile.Script
