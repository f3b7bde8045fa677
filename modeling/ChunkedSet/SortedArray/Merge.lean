import ChunkedSet.Search

/-!
# Merging sorted lists

One merge serves the four set operations: `Keep` says which parts of it are wanted, and a sink
`emit` receives them in order. An intersection of lists of very different lengths gallops: it
probes the longer one in steps that double.
-/

namespace ChunkedSet.SortedArray

/-- The parts of a merge of two lists that are kept. -/
structure Keep where
  left : Bool
  both : Bool
  right : Bool

def Keep.union : Keep := ⟨true, true, true⟩

def Keep.intersection : Keep := ⟨false, true, false⟩

def Keep.difference : Keep := ⟨true, false, false⟩

def Keep.symmetricDifference : Keep := ⟨true, false, true⟩

variable {β : Type}

def emitIf (wanted : Bool) (emit : β → Nat → β) (out : β) (x : Nat) : β :=
  if wanted then emit out x else out

def emitAll (wanted : Bool) (emit : β → Nat → β) (out : β) (xs : List Nat) : β :=
  if wanted then xs.foldl emit out else out

def merge (keep : Keep) (emit : β → Nat → β) (xs ys : List Nat) (out : β) : β :=
  match xs, ys with
  | [], ys => emitAll keep.right emit out ys
  | xs, [] => emitAll keep.left emit out xs
  | x :: xs, y :: ys =>
    if x < y then merge keep emit xs (y :: ys) (emitIf keep.left emit out x)
    else if y < x then merge keep emit (x :: xs) ys (emitIf keep.right emit out y)
    else merge keep emit xs ys (emitIf keep.both emit out x)
termination_by xs.length + ys.length

/-- Intersections gallop once one side is more than this many times as long as the other. -/
def gallopFactor : Nat := 64

/-- Doubles `bound` while the element before it is below `target`. -/
def gallopBound (xs : Array Nat) (start target : Nat) : Nat → Nat → Nat
  | 0, bound => bound
  | fuel + 1, bound =>
    if start + bound < xs.size then
      match xs[start + bound - 1]? with
      | some x => if x < target then gallopBound xs start target fuel (bound * 2) else bound
      | none => bound
    else bound

def gallop (xs : Array Nat) (start target : Nat) : Nat :=
  let bound := gallopBound xs start target xs.size 1
  partitionPointIn (· < target) xs (start + bound / 2) (min (start + bound) xs.size)

def gallopIntersection (emit : β → Nat → β) (large : Array Nat) :
    List Nat → Nat → β → β
  | [], _, out => out
  | x :: small, start, out =>
    let probe := gallop large start x
    match large[probe]? with
    | some found =>
      if found = x then gallopIntersection emit large small (probe + 1) (emit out x)
      else gallopIntersection emit large small probe out
    | none => out

def intersectInto (emit : β → Nat → β) (xs ys : Array Nat) (out : β) : β :=
  if xs.size * gallopFactor < ys.size then gallopIntersection emit ys xs.toList 0 out
  else if ys.size * gallopFactor < xs.size then gallopIntersection emit xs ys.toList 0 out
  else merge .intersection emit xs.toList ys.toList out

end ChunkedSet.SortedArray
