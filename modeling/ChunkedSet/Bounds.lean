import ChunkedSet.Position

/-!
# Bounds of ranges of values

A range is given by two bounds, each included, excluded or missing. Resolving them yields the
first and the last value of the range, or the reason why there are none.
-/

namespace ChunkedSet

inductive Bound
  | included (value : Nat)
  | excluded (value : Nat)
  | unbounded
deriving DecidableEq

def Bound.value? : Bound → Option Nat
  | included v => some v
  | excluded v => some v
  | unbounded => none

structure Bounds where
  lower : Bound
  upper : Bound
deriving DecidableEq

structure Span where
  first : Nat
  last : Nat
deriving DecidableEq

inductive RangeError
  | startGreaterThanEnd (start stop : Nat)
  | outOfDomain (stop : Nat)
deriving DecidableEq

def RangeError.message : RangeError → String
  | startGreaterThanEnd start stop =>
    "range start " ++ toString start ++ " is greater than range end " ++ toString stop
  | outOfDomain stop => "range end " ++ toString stop ++ " is outside of the u32 domain"

namespace Bound

def first? : Bound → Option Nat
  | included v => some v
  | excluded v => if v + 1 < domainSize then some (v + 1) else none
  | unbounded => some 0

def last? : Bound → Option Nat
  | included v => some v
  | excluded 0 => none
  | excluded (v + 1) => some v
  | unbounded => some (domainSize - 1)

end Bound

namespace Bounds

def values? (b : Bounds) : Option Span :=
  match b.lower.first?, b.upper.last? with
  | some first, some last => if first ≤ last then some ⟨first, last⟩ else none
  | _, _ => none

/-- The two values as given, if both bounds have one and the lower one is greater. -/
def reversed? (b : Bounds) : Option (Nat × Nat) :=
  match b.lower.value?, b.upper.value? with
  | some start, some stop => if stop < start then some (start, stop) else none
  | _, _ => none

/-- The range of a question: a range without values is empty, even a reversed one. -/
def span? (b : Bounds) : Option Span := if b.reversed?.isSome then none else b.values?

/-- The range of a change: a range may be empty, but not reversed. -/
def checked (b : Bounds) : Except RangeError (Option Span) :=
  match b.reversed? with
  | some (start, stop) => .error (.startGreaterThanEnd start stop)
  | none => .ok b.values?

end Bounds

/-- The last value below `stop`, for a `stop` that may lie one past the domain. -/
def lastBelow (stop : Nat) : Except RangeError (Option Nat) :=
  if domainSize < stop then .error (.outOfDomain stop)
  else
    match stop with
    | 0 => .ok none
    | last + 1 => .ok (some last)

namespace Span

def firstKey (s : Span) : Nat := keyOf s.first

def lastKey (s : Span) : Nat := keyOf s.last

def firstIn (s : Span) (key : Nat) : Nat := if key = s.firstKey then positionOf s.first else 0

def lastIn (s : Span) (key : Nat) : Nat :=
  if key = s.lastKey then positionOf s.last else lastPosition

def keys (s : Span) : List Nat := List.range' s.firstKey (s.lastKey + 1 - s.firstKey)

end Span

end ChunkedSet
