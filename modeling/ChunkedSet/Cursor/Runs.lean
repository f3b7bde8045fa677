import ChunkedSet.RunList.Basic

/-!
# Cursors over runs

The values left are those from `value` up to, not including, `stop`, as far as runs cover them.
`front` is the index of the run that holds `value`, and `back` of the run that holds `stop - 1`.
-/

namespace ChunkedSet

structure RunCursor where
  runs : Array Run
  front : Nat
  value : Nat
  back : Nat
  stop : Nat

namespace RunCursor

/-- Stands for `value` once the front has passed the last run. -/
def beyond : Nat := 4294967295

def ofList (l : RunList) : RunCursor where
  runs := l.runs
  front := 0
  value := l.runs[0]?.elim 0 Run.first
  back := l.runs.size - 1
  stop := l.runs.back?.elim 0 (·.last + 1)

def isExhausted (c : RunCursor) : Bool := decide (c.stop ≤ c.value)

def peek? (c : RunCursor) : Option Nat := if c.isExhausted then none else some c.value

def peekBack? (c : RunCursor) : Option Nat := if c.isExhausted then none else some (c.stop - 1)

def advanceTo (c : RunCursor) (p : Nat) : RunCursor :=
  if p ≤ c.value then c
  else
    let place := partitionPointIn (·.last < p) c.runs c.front c.runs.size
    match c.runs[place]? with
    | some r => { c with front := place, value := max p r.first }
    | none => { c with value := beyond }

def advanceBackTo (c : RunCursor) (p : Nat) : RunCursor :=
  if c.stop ≤ p + 1 then c
  else
    match partitionPointIn (·.first ≤ p) c.runs 0 (c.back + 1) with
    | 0 => { c with stop := 0 }
    | place + 1 => { c with back := place, stop := min p (c.runs[place]?.elim 0 Run.last) + 1 }

def frontLast (c : RunCursor) : Nat := c.runs[c.front]?.elim 0 Run.last

def backFirst (c : RunCursor) : Nat := c.runs[c.back]?.elim 0 Run.first

/-- Moves the front to `p`, which lies in the run at the front or one past it. -/
def skipTo (c : RunCursor) (p : Nat) : RunCursor :=
  if c.frontLast < p then
    { c with front := c.front + 1, value := c.runs[c.front + 1]?.elim beyond Run.first }
  else { c with value := p }

def next (c : RunCursor) : Option Nat × RunCursor :=
  if c.isExhausted then (none, c) else (some c.value, c.skipTo (c.value + 1))

def nextBack (c : RunCursor) : Option Nat × RunCursor :=
  if c.isExhausted then (none, c)
  else if c.stop - 1 = c.backFirst then
    match c.back with
    | 0 => (some (c.stop - 1), { c with stop := 0 })
    | lower + 1 =>
      (some (c.stop - 1), { c with back := lower, stop := c.runs[lower]?.elim 0 Run.last + 1 })
  else (some (c.stop - 1), { c with stop := c.stop - 1 })

/-- Takes the longest leading stretch of at most `limit` values that lies in one run. The end of
the stretch is computed modulo 2^32, so it is right for limits well below that. -/
def nextChunk (c : RunCursor) (limit : Nat) : Option Run × RunCursor :=
  if c.isExhausted || limit == 0 then (none, c)
  else
    let reach := (c.value + limit + 4294967295) % 4294967296
    let last := min (min c.frontLast (c.stop - 1)) reach
    (some ⟨c.value, last⟩, c.skipTo (last + 1))

def size (c : RunCursor) : Nat :=
  if c.isExhausted then 0
  else if c.front = c.back then c.stop - c.value
  else
    let middle := (c.runs.extract (c.front + 1) c.back).foldl (fun n r => n + r.size) 0
    c.frontLast + 1 - c.value + middle + (c.stop - c.backFirst)

end RunCursor

end ChunkedSet
