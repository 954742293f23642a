import SingleFile.Log

/-!
# Routines

A routine works on a state, and may wait between its steps.  Two routines run together in rounds: in
each round the first goes on until it waits or ends, then the second.  The first failure ends both.
-/

namespace SingleFile

/-- A routine that works on a state, and ends with a value or a failure. -/
inductive Routine (σ ε α : Type) where
  | done (a : α)
  | fail (e : ε)
  | read (next : σ → Routine σ ε α)
  | write (s : σ) (next : Routine σ ε α)
  | wait (next : Routine σ ε α)

namespace Routine

def bind (f : α → Routine σ ε β) : Routine σ ε α → Routine σ ε β
  | done a => f a
  | fail e => fail e
  | read next => read fun s => bind f (next s)
  | write s next => write s (bind f next)
  | wait next => wait (bind f next)

instance : Monad (Routine σ ε) where
  pure := done
  bind p f := p.bind f

def recover (handle : ε → Routine σ ε α) : Routine σ ε α → Routine σ ε α
  | done a => done a
  | fail e => handle e
  | read next => read fun s => recover handle (next s)
  | write s next => write s (recover handle next)
  | wait next => wait (recover handle next)

instance : MonadExceptOf ε (Routine σ ε) where
  throw := fail
  tryCatch p handle := p.recover handle

def get : Routine σ ε σ := read done

def modify (f : σ → σ) : Routine σ ε Unit := read fun s => write (f s) (done ())

/-- Waits some number of times. -/
def pause : Nat → Routine σ ε Unit
  | 0 => done ()
  | n + 1 => wait (pause n)

def ofExcept : Except ε α → Routine σ ε α
  | .ok a => done a
  | .error e => fail e

/-- The routine with its failures told in another way. -/
def mapError (f : ε → ε') : Routine σ ε α → Routine σ ε' α
  | done a => done a
  | fail e => fail (f e)
  | read next => read fun s => mapError f (next s)
  | write s next => write s (mapError f next)
  | wait next => wait (mapError f next)

def outcome : Routine σ ε α → Routine σ ε' (Except ε α)
  | done a => done (.ok a)
  | fail e => done (.error e)
  | read next => read fun s => outcome (next s)
  | write s next => write s (outcome next)
  | wait next => wait (outcome next)

/-- Runs a routine from a state to its end; waiting takes no part in the outcome. -/
def run : Routine σ ε α → σ → Except ε α × σ
  | done a, s => (.ok a, s)
  | fail e, s => (.error e, s)
  | read next, s => (next s).run s
  | write s next, _ => next.run s
  | wait next, s => next.run s

/-- Runs a routine until it waits, then waits and goes on with what `waiting` makes of the rest; `ended`
goes on where the routine ends without waiting. -/
def round (waiting : Routine σ ε α → Routine σ ε β) (ended : α → Routine σ ε β) :
    Routine σ ε α → Routine σ ε β
  | done a => ended a
  | fail e => fail e
  | read next => read fun s => round waiting ended (next s)
  | write s next => write s (round waiting ended next)
  | wait next => wait (waiting next)

/-- Runs two routines together. -/
def both : Routine σ ε α → Routine σ ε β → Routine σ ε (α × β)
  | done a, q => q.bind fun b => done (a, b)
  | fail e, _ => fail e
  | read next, q => read fun s => both (next s) q
  | write s next, q => write s (both next q)
  | wait next, q => round (both next) (fun b => wait (next.bind fun a => done (a, b))) q

def together : List (Routine σ ε α) → Routine σ ε (List α)
  | [] => done []
  | p :: rest => (both p (together rest)).bind fun r => done (r.1 :: r.2)

/-- Runs routines one after the other. -/
def inTurn : List (Routine σ ε α) → Routine σ ε (List α)
  | [] => done []
  | p :: rest => p.bind fun a => (inTurn rest).bind fun as => done (a :: as)

end Routine

/-- The state of a run: what has been said, and what belongs to the compilers. -/
structure Session (κ : Type) where
  events : List Event := []
  own : κ

def Routine.log (e : Event) : Routine (Session κ) ε Unit :=
  modify fun s => { s with events := s.events ++ [e] }

end SingleFile
