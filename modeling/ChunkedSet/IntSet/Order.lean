import ChunkedSet.IntSet.Ranges

/-!
# Order statistics and neighbours

Rank and selection add up the sizes of whole chunks. The search for a neighbour passes from chunk
to chunk; the search for a missing value ends at the first missing key.
-/

namespace ChunkedSet.IntSet

def rank (s : IntSet) (v : Nat) : Nat :=
  let place := s.below (keyOf v)
  let before := (s.entries.extract 0 place).foldl (fun n e => n + e.size) 0
  match s.entries[place]? with
  | some e => if e.key = keyOf v then before + e.chunk.rank (positionOf v) else before
  | none => before

/-- A rank inside a chunk is a number of 16 bits. -/
def selectIn : List Entry → Nat → Option Nat
  | [], _ => none
  | e :: rest, n =>
    if e.size ≤ n then selectIn rest (n - e.size)
    else (e.chunk.select (n % chunkSize)).map e.value

def select (s : IntSet) (n : Nat) : Option Nat := selectIn s.entries.toList n

def exceedsIn (threshold : Nat) : List Entry → Nat → Bool
  | [], _ => false
  | e :: rest, seen =>
    if threshold < seen + e.size then true else exceedsIn threshold rest (seen + e.size)

def sizeExceeds (s : IntSet) (threshold : Nat) : Bool := exceedsIn threshold s.entries.toList 0

def next? (s : IntSet) (v : Nat) : Option Nat :=
  (s.entries.extract (s.below (keyOf v)) s.entries.size).findSome? fun e =>
    (e.chunk.next? (if e.key = keyOf v then positionOf v else 0)).map e.value

def previous? (s : IntSet) (v : Nat) : Option Nat :=
  (s.entries.extract 0 (s.upTo (keyOf v))).findSomeRev? fun e =>
    (e.chunk.previous? (if e.key = keyOf v then positionOf v else lastPosition)).map e.value

/-- Looks for a missing value from position `p` of chunk `key` on. -/
def nextAbsentIn : List Entry → Nat → Nat → Option Nat
  | [], key, p => some (valueAt key p)
  | e :: rest, key, p =>
    if e.key = key then
      match e.chunk.nextAbsent? p with
      | some absent => some (valueAt key absent)
      | none => if key < lastPosition then nextAbsentIn rest (key + 1) 0 else none
    else some (valueAt key p)

def nextAbsent? (s : IntSet) (v : Nat) : Option Nat :=
  nextAbsentIn (s.entries.extract (s.below (keyOf v)) s.entries.size).toList (keyOf v)
    (positionOf v)

def previousAbsentIn : List Entry → Nat → Nat → Option Nat
  | [], key, p => some (valueAt key p)
  | e :: rest, key, p =>
    if e.key = key then
      match e.chunk.previousAbsent? p with
      | some absent => some (valueAt key absent)
      | none =>
        match key with
        | 0 => none
        | lower + 1 => previousAbsentIn rest lower lastPosition
    else some (valueAt key p)

def previousAbsent? (s : IntSet) (v : Nat) : Option Nat :=
  previousAbsentIn (s.entries.extract 0 (s.upTo (keyOf v))).toList.reverse (keyOf v)
    (positionOf v)

def intersectsRange (s : IntSet) (range : Bounds) : Bool :=
  match range.span? with
  | none => false
  | some span => (s.next? span.first).any (· ≤ span.last)

end ChunkedSet.IntSet
