import ChunkedSet.Cursor.Basic

/-!
# Steps of cursors and of queues

The steps that move a cursor, and what each of them does to a double-ended queue of values in
increasing order. A session moves several cursors, each of them a copy of an earlier one.
-/

namespace ChunkedSet

inductive CursorStep
  | next
  | nextBack
  | nth (n : Nat)
  | nthBack (n : Nat)
  | advanceTo (v : Nat)
  | advanceBackTo (v : Nat)
deriving DecidableEq

namespace CursorStep

def onCursor : CursorStep → Cursor → Option Nat × Cursor
  | next, c => c.next
  | nextBack, c => c.nextBack
  | nth n, c => c.nth n
  | nthBack n, c => c.nthBack n
  | advanceTo v, c => (none, c.advanceTo v)
  | advanceBackTo v, c => (none, c.advanceBackTo v)

def onQueue : CursorStep → List Nat → Option Nat × List Nat
  | next, xs => (xs.head?, xs.tail)
  | nextBack, xs => (xs.getLast?, xs.dropLast)
  | nth n, xs => (xs[n]?, xs.drop (n + 1))
  | nthBack n, xs => (xs.reverse[n]?, (xs.reverse.drop (n + 1)).reverse)
  | advanceTo v, xs => (none, xs.dropWhile (· < v))
  | advanceBackTo v, xs => (none, (xs.reverse.dropWhile (v < ·)).reverse)

def run {σ : Type} (act : CursorStep → σ → Option Nat × σ) : List CursorStep → σ → List Nat × σ
  | [], c => ([], c)
  | step :: steps, c =>
    let (v, c) := act step c
    let (taken, c) := run act steps c
    (v.toList ++ taken, c)

theorem run_cons {σ : Type} (act : CursorStep → σ → Option Nat × σ) (step : CursorStep)
    (steps : List CursorStep) (c : σ) : run act (step :: steps) c =
      ((act step c).1.toList ++ (run act steps (act step c).2).1, (run act steps (act step c).2).2) :=
  rfl

end CursorStep

/-- One move in a session: a step of one cursor, or a copy of one, which joins the others. -/
inductive CursorCommand
  | step (i : Nat) (step : CursorStep)
  | clone (i : Nat)
deriving DecidableEq

namespace CursorCommand

def apply {σ : Type} (act : CursorStep → σ → Option Nat × σ) :
    CursorCommand → List σ → Option Nat × List σ
  | step i s, pool =>
    match pool[i]? with
    | some c =>
      let (v, c) := act s c
      (v, pool.set i c)
    | none => (none, pool)
  | clone i, pool => (none, pool ++ pool[i]?.toList)

def run {σ : Type} (act : CursorStep → σ → Option Nat × σ) :
    List CursorCommand → List σ → List (Option Nat) × List σ
  | [], pool => ([], pool)
  | command :: commands, pool =>
    let (v, pool) := command.apply act pool
    let (answers, pool) := run act commands pool
    (v :: answers, pool)

theorem run_cons {σ : Type} (act : CursorStep → σ → Option Nat × σ) (command : CursorCommand)
    (commands : List CursorCommand) (pool : List σ) : run act (command :: commands) pool =
      ((command.apply act pool).1 :: (run act commands (command.apply act pool).2).1,
        (run act commands (command.apply act pool).2).2) :=
  rfl

end CursorCommand

end ChunkedSet
