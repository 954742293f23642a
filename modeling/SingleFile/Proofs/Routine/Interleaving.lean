import SingleFile.Proofs.Order.Stable
import SingleFile.Proofs.Routine.Outcome

/-!
# Interleavings of routines

`Routine.Interleaves` says that a routine takes the steps of several routines in some order, and
gives their values or the failure of one of them.  Running together in rounds is one such order and
running in turn another.  Where each routine has one outcome, every order succeeds in the same case
and with the same values (`Interleaves.ends`).
-/

namespace SingleFile.Routine

variable {σ ε α : Type}

/-- Whether a routine takes the steps of some routines in some order.  A routine that waits may go on
at any time.  There are values once all have ended, and any failure may end all. -/
inductive Interleaves : List (Routine σ ε α) → Routine σ ε (List α) → Prop
  | done (as : List α) : Interleaves (as.map .done) (.done as)
  | fail {ps : List (Routine σ ε α)} {e : ε} (h : .fail e ∈ ps) : Interleaves ps (.fail e)
  | read (before : List (Routine σ ε α)) {after : List (Routine σ ε α)}
      {next : σ → Routine σ ε α} {rest : σ → Routine σ ε (List α)}
      (h : ∀ s, Interleaves (before ++ next s :: after) (rest s)) :
      Interleaves (before ++ .read next :: after) (.read rest)
  | write (before : List (Routine σ ε α)) {after : List (Routine σ ε α)} {s : σ}
      {next : Routine σ ε α} {rest : Routine σ ε (List α)}
      (h : Interleaves (before ++ next :: after) rest) :
      Interleaves (before ++ .write s next :: after) (.write s rest)
  | resume (before : List (Routine σ ε α)) {after : List (Routine σ ε α)}
      {next : Routine σ ε α} {rest : Routine σ ε (List α)}
      (h : Interleaves (before ++ next :: after) rest) :
      Interleaves (before ++ .wait next :: after) rest
  | wait {ps : List (Routine σ ε α)} {rest : Routine σ ε (List α)} (h : Interleaves ps rest) :
      Interleaves ps (.wait rest)

namespace Interleaves

variable {ps : List (Routine σ ε α)} {q : Routine σ ε (List α)}

/-! ### Outcomes -/

/-- A step of one routine leaves all outcomes as they are. -/
theorem forall₂_gives_step {os : List (Except ε α)} {p p' : Routine σ ε α}
    (before : List (Routine σ ε α)) {after : List (Routine σ ε α)}
    (hstep : ∀ o, p.Gives o → p'.Gives o)
    (h : List.Forall₂ Gives os (before ++ p :: after)) :
    List.Forall₂ Gives os (before ++ p' :: after) := by
  induction before generalizing os with
  | nil =>
    cases h with
    | cons ho h => exact .cons (hstep _ ho) h
  | cons b before ih =>
    cases h with
    | cons ho h => exact .cons ho (ih h)

theorem eq_of_forall₂_gives_done {os : List (Except ε α)} {as : List α}
    (h : List.Forall₂ Gives os (as.map (.done : α → Routine σ ε α))) : os = as.map .ok := by
  induction as generalizing os with
  | nil =>
    cases h
    rfl
  | cons a as ih =>
    cases h with
    | cons ho h =>
      obtain rfl : Except.ok a = _ := ho
      rw [ih h]
      rfl

/-- In every order there are values just if each routine gives one, and a failure is that of one of the
routines. -/
theorem ends {os : List (Except ε α)} (hos : List.Forall₂ Gives os ps) (h : Interleaves ps q) :
    q.Ends fun o => (∀ as, o = .ok as ↔ os = as.map .ok) ∧ ∀ e, o = .error e → .error e ∈ os := by
  induction h with
  | done as =>
    obtain rfl := eq_of_forall₂_gives_done hos
    constructor
    · intro bs
      rw [Except.ok.injEq, List.map_inj_right fun a b h => Except.ok.inj h]
    · rintro e ⟨⟩
  | @fail ps e hmem =>
    obtain ⟨o, ho, hgives⟩ := exists_of_mem_forall₂ (List.Forall₂.flip hos) hmem
    obtain rfl : Except.error e = o := hgives
    constructor
    · intro as
      constructor
      · rintro ⟨⟩
      · intro has
        rw [has] at ho
        obtain ⟨a, -, ha⟩ := List.mem_map.1 ho
        cases ha
    · rintro e' ⟨⟩
      exact ho
  | @read before after next rest h ih =>
    intro s
    have hstep (o) (ho : (Routine.read next).Gives o) : (next s).Gives o := ho s
    exact ih s (forall₂_gives_step before hstep hos)
  | @write before after s next rest h ih =>
    have hstep (o) (ho : (Routine.write s next).Gives o) : next.Gives o := ho
    exact ih (forall₂_gives_step before hstep hos)
  | @resume before after next rest h ih =>
    have hstep (o) (ho : (Routine.wait next).Gives o) : next.Gives o := ho
    exact ih (forall₂_gives_step before hstep hos)
  | wait h ih => exact ih hos

/-! ### Orders -/

/-- A value that is there already comes first. -/
theorem cons_done (a : α) (h : Interleaves ps q) :
    Interleaves (.done a :: ps) (q.bind fun as => .done (a :: as)) := by
  induction h with
  | done as => exact .done (a :: as)
  | fail hmem => exact .fail (List.mem_cons_of_mem _ hmem)
  | read before h ih => exact .read (.done a :: before) ih
  | write before h ih => exact .write (.done a :: before) ih
  | resume before h ih => exact .resume (.done a :: before) ih
  | wait h ih => exact .wait ih

/-- The first routine runs to its end, then the others go on. -/
theorem cons_bind (p : Routine σ ε α) (h : Interleaves ps q) :
    Interleaves (p :: ps) (p.bind fun a => q.bind fun as => .done (a :: as)) := by
  induction p with
  | done a => exact cons_done a h
  | fail e => exact .fail List.mem_cons_self
  | read next ih => exact .read [] ih
  | write s next ih => exact .write [] ih
  | wait next ih => exact .wait (.resume [] ih)

theorem inTurn (ps : List (Routine σ ε α)) : Interleaves ps (inTurn ps) := by
  induction ps with
  | nil => exact .done []
  | cons p ps ih => exact cons_bind p ih

theorem bind_assoc_done {β γ δ : Type} (q : Routine σ ε β) (f : β → γ) (g : γ → δ) :
    (q.bind fun b => .done (f b)).bind (fun c => .done (g c)) = q.bind fun b => .done (g (f b)) := by
  induction q with
  | done b => rfl
  | fail e => rfl
  | read next ih => exact congrArg Routine.read (funext ih)
  | write s next ih => exact congrArg (Routine.write s) ih
  | wait next ih => exact congrArg Routine.wait ih

/-- One routine runs in rounds with others. -/
theorem cons_both (p : Routine σ ε α) (h : Interleaves ps q) :
    Interleaves (p :: ps) ((both p q).bind fun r => .done (r.1 :: r.2)) := by
  induction p generalizing ps q with
  | done a =>
    rw [both, bind_assoc_done]
    exact cons_done a h
  | fail e => exact .fail List.mem_cons_self
  | read next ih => exact .read [] fun s => ih s h
  | write s next ih => exact .write [] (ih h)
  | wait next ih =>
    -- the first routine waits; the others go on until they wait or end
    show Interleaves (.wait next :: ps)
      ((round (both next) (fun b => .wait (next.bind fun a => .done (a, b))) q).bind _)
    induction h with
    | done as =>
      show Interleaves _ (.wait ((next.bind fun a => .done (a, as)).bind _))
      rw [bind_assoc_done]
      exact .wait (.resume [] (cons_bind next (.done as)))
    | fail hmem => exact .fail (List.mem_cons_of_mem _ hmem)
    | read before h ihq => exact .read (.wait next :: before) ihq
    | write before h ihq => exact .write (.wait next :: before) ihq
    | resume before h ihq => exact .resume (.wait next :: before) ihq
    | wait h _ => exact .wait (.resume [] (ih h))

theorem together (ps : List (Routine σ ε α)) : Interleaves ps (together ps) := by
  induction ps with
  | nil => exact .done []
  | cons p ps ih => exact cons_both p ih

end Interleaves

end SingleFile.Routine
