import ChunkedSet.Position
import ChunkedSet.SortedArray.Merge

/-!
# Sorted arrays of positions

The positions of a chunk in strictly increasing order. Point and range operations find their
place by binary search; the set operations are merges.
-/

namespace ChunkedSet

structure SortedArray where
  values : Array Nat
deriving DecidableEq

inductive OrderFault
  | duplicate (index : Nat)
  | outOfOrder (index : Nat)
deriving DecidableEq

/-- The first fault of a list, whose head has the given index. -/
def OrderFault.find? : List Nat → Nat → Option OrderFault
  | x :: y :: rest, index =>
    if y < x then some (.outOfOrder (index + 1))
    else if y = x then some (.duplicate (index + 1))
    else find? (y :: rest) (index + 1)
  | _, _ => none

namespace SortedArray

def empty : SortedArray := ⟨#[]⟩

def toList (a : SortedArray) : List Nat := a.values.toList

def size (a : SortedArray) : Nat := a.values.size

def isEmpty (a : SortedArray) : Bool := a.values.isEmpty

def min? (a : SortedArray) : Option Nat := a.values[0]?

def max? (a : SortedArray) : Option Nat := a.values.back?

def below (a : SortedArray) (p : Nat) : Nat := partitionPoint (· < p) a.values

def rank (a : SortedArray) (p : Nat) : Nat := partitionPoint (· ≤ p) a.values

def contains (a : SortedArray) (p : Nat) : Bool := a.values[a.below p]? == some p

def select (a : SortedArray) (n : Nat) : Option Nat := a.values[n]?

/-- The indices of the values between `lo` and `hi`: from the first, up to the second. -/
def window (a : SortedArray) (lo hi : Nat) : Nat × Nat :=
  let start := a.below lo
  (start, partitionPointIn (· ≤ hi) a.values start a.values.size)

def rangeSize (a : SortedArray) (lo hi : Nat) : Nat :=
  let (start, stop) := a.window lo hi
  stop - start

def containsRange (a : SortedArray) (lo hi : Nat) : Bool :=
  a.rangeSize lo hi == hi - lo + 1

def insert (a : SortedArray) (p : Nat) : SortedArray × Bool :=
  let place := a.below p
  if a.values[place]? == some p then (a, false)
  else (⟨a.values.insertIdxIfInBounds place p⟩, true)

def erase (a : SortedArray) (p : Nat) : SortedArray × Bool :=
  let place := a.below p
  if a.values[place]? == some p then (⟨a.values.eraseIdxIfInBounds place⟩, true)
  else (a, false)

/-- Appends `p`, which exceeds every value. -/
def append (a : SortedArray) (p : Nat) : SortedArray := ⟨a.values.push p⟩

def push (a : SortedArray) (p : Nat) : SortedArray × Bool :=
  match a.max? with
  | some last => if last < p then (a.append p, true) else (a, false)
  | none => (a.append p, true)

def insertRange (a : SortedArray) (lo hi : Nat) : SortedArray × Nat :=
  let (start, stop) := a.window lo hi
  let inside := Array.range' lo (hi - lo + 1)
  (⟨a.values.extract 0 start ++ inside ++ a.values.extract stop a.values.size⟩,
    hi - lo + 1 - (stop - start))

def eraseRange (a : SortedArray) (lo hi : Nat) : SortedArray × Nat :=
  let (start, stop) := a.window lo hi
  (⟨a.values.extract 0 start ++ a.values.extract stop a.values.size⟩, stop - start)

def dropSmallest (a : SortedArray) (n : Nat) : SortedArray := ⟨a.values.extract n a.values.size⟩

def dropBiggest (a : SortedArray) (n : Nat) : SortedArray :=
  ⟨a.values.extract 0 (a.values.size - n)⟩

def isDisjointFrom : List Nat → List Nat → Bool
  | [], _ => true
  | _, [] => true
  | x :: xs, y :: ys =>
    if x = y then false
    else if x < y then isDisjointFrom xs (y :: ys)
    else isDisjointFrom (x :: xs) ys
termination_by xs ys => xs.length + ys.length

def isDisjoint (a b : SortedArray) : Bool := isDisjointFrom a.toList b.toList

/-- Looks the values up one after the other, each search starting behind the last find. -/
def subsetFrom (large : Array Nat) : List Nat → Nat → Bool
  | [], _ => true
  | x :: small, start =>
    let place := partitionPointIn (· < x) large start large.size
    if large[place]? == some x then subsetFrom large small (place + 1) else false

def isSubset (a b : SortedArray) : Bool :=
  if b.size < a.size then false else subsetFrom b.values a.toList 0

def runCount (a : SortedArray) : Nat :=
  if a.isEmpty then 0 else breaks a.toList + 1
where
  breaks : List Nat → Nat
    | x :: y :: rest => (if x + 1 = y then 0 else 1) + breaks (y :: rest)
    | _ => 0

def next? (a : SortedArray) (p : Nat) : Option Nat := a.values[a.below p]?

def previous? (a : SortedArray) (p : Nat) : Option Nat :=
  match a.rank p with
  | 0 => none
  | n + 1 => a.values[n]?

/-- Walks up from `candidate` as long as the list holds the value reached. -/
def climb : List Nat → Nat → Nat
  | [], candidate => candidate
  | x :: rest, candidate => if x = candidate then climb rest (candidate + 1) else candidate

def nextAbsent? (a : SortedArray) (p : Nat) : Option Nat :=
  let found := climb (a.values.extract (a.below p) a.values.size).toList p
  if found < chunkSize then some found else none

def descend : List Nat → Nat → Option Nat
  | [], candidate => some candidate
  | x :: rest, candidate =>
    if x = candidate then
      match candidate with
      | 0 => none
      | lower + 1 => descend rest lower
    else some candidate

def previousAbsent? (a : SortedArray) (p : Nat) : Option Nat :=
  descend (a.values.extract 0 (a.rank p)).toList.reverse p

def union (a b : SortedArray) : SortedArray :=
  ⟨merge .union Array.push a.toList b.toList #[]⟩

def intersection (a b : SortedArray) : SortedArray :=
  ⟨intersectInto Array.push a.values b.values #[]⟩

def intersectionSize (a b : SortedArray) : Nat :=
  intersectInto (fun n _ => n + 1) a.values b.values 0

def difference (a b : SortedArray) : SortedArray :=
  ⟨merge .difference Array.push a.toList b.toList #[]⟩

def symmetricDifference (a b : SortedArray) : SortedArray :=
  ⟨merge .symmetricDifference Array.push a.toList b.toList #[]⟩

def filter (keep : Nat → Bool) (a : SortedArray) : SortedArray := ⟨a.values.filter keep⟩

end SortedArray

end ChunkedSet
