import ChunkedSet.RankedSet

/-!
# Sessions of ranked sets

What can be done to a ranked set and asked of it, and what each such step does to a plain set that
comes with a flag: whether the sums were asked for since the last change. A session works on
several sets, some of them copies of others.
-/

namespace ChunkedSet

/-- The answer to a step; `α` is what a change that is not one of the named ones reports. -/
inductive RankedAnswer (α : Type)
  | done
  | flag (b : Bool)
  | changed (report : Except RangeError Nat)
  | flipped (report : Except RangeError Unit)
  | number (n : Nat)
  | value (v : Option Nat)
  | report (a : α)

inductive RankedChange (α : Type)
  | insert (v : Nat)
  | erase (v : Nat)
  | push (v : Nat)
  | insertRange (range : Bounds)
  | eraseRange (range : Bounds)
  | flip (range : Bounds)
  | insertAll (values : List Nat)
  | clear
  | update (f : IntSet → IntSet × α)

inductive RankedQuery
  | size
  | rank (v : Nat)
  | select (n : Nat)
  | contains (v : Nat)
  | isEmpty

inductive RankedStep (α : Type)
  | change (c : RankedChange α)
  | ask (q : RankedQuery)

variable {α : Type}

def RankedChange.onSet : RankedChange α → IntSet → IntSet × RankedAnswer α
  | insert v, s => Prod.map id .flag (s.insert v)
  | erase v, s => Prod.map id .flag (s.erase v)
  | push v, s => Prod.map id .flag (s.push v)
  | insertRange range, s => Prod.map id .changed (s.insertRange range)
  | eraseRange range, s => Prod.map id .changed (s.eraseRange range)
  | flip range, s => Prod.map id .flipped (s.flip range)
  | insertAll values, s => (s.insertAll values, .done)
  | clear, _ => (.empty, .done)
  | update f, s => Prod.map id .report (f s)

namespace RankedQuery

def onRanked : RankedQuery → RankedSet → RankedAnswer α × RankedSet
  | size, r => Prod.map .number id r.size
  | rank v, r => Prod.map .number id (r.rank v)
  | select n, r => Prod.map .value id (r.select n)
  | contains v, r => (.flag (r.set.contains v), r)
  | isEmpty, r => (.flag r.set.isEmpty, r)

def onSet : RankedQuery → IntSet → RankedAnswer α
  | size, s => .number s.size
  | rank v, s => .number (s.rank v)
  | select n, s => .value (s.select n)
  | contains v, s => .flag (s.contains v)
  | isEmpty, s => .flag s.isEmpty

def needsSums : RankedQuery → Bool
  | size | rank _ | select _ => true
  | contains _ | isEmpty => false

end RankedQuery

namespace RankedStep

def onRanked : RankedStep α → RankedSet → RankedAnswer α × RankedSet
  | change c, r => (r.update c.onSet).swap
  | ask q, r => q.onRanked r

/-- The flag says whether the sums were asked for since the last change. -/
def onPlain : RankedStep α → IntSet × Bool → RankedAnswer α × (IntSet × Bool)
  | change c, (s, _) =>
    let (s, answer) := c.onSet s
    (answer, (s, false))
  | ask q, (s, asked) => (q.onSet s, (s, asked || q.needsSums))

end RankedStep

inductive RankedCommand (α : Type)
  | step (i : Nat) (step : RankedStep α)
  | equals (i j : Nat)
  | clone (i : Nat)

namespace RankedCommand

variable {σ : Type}

def apply (act : RankedStep α → σ → RankedAnswer α × σ) (eq : σ → σ → Bool) :
    RankedCommand α → List σ → Option (RankedAnswer α) × List σ
  | step i st, pool =>
    match pool[i]? with
    | some x =>
      let (answer, x) := act st x
      (some answer, pool.set i x)
    | none => (none, pool)
  | equals i j, pool =>
    match pool[i]?, pool[j]? with
    | some x, some y => (some (.flag (eq x y)), pool)
    | _, _ => (none, pool)
  | clone i, pool => (none, pool ++ pool[i]?.toList)

def run (act : RankedStep α → σ → RankedAnswer α × σ) (eq : σ → σ → Bool) :
    List (RankedCommand α) → List σ → List (Option (RankedAnswer α)) × List σ
  | [], pool => ([], pool)
  | command :: commands, pool =>
    let (answer, pool) := command.apply act eq pool
    let (answers, pool) := run act eq commands pool
    (answer :: answers, pool)

theorem run_cons (act : RankedStep α → σ → RankedAnswer α × σ) (eq : σ → σ → Bool)
    (command : RankedCommand α) (commands : List (RankedCommand α)) (pool : List σ) :
    run act eq (command :: commands) pool =
      ((command.apply act eq pool).1 :: (run act eq commands (command.apply act eq pool).2).1,
        (run act eq commands (command.apply act eq pool).2).2) :=
  rfl

end RankedCommand

end ChunkedSet
