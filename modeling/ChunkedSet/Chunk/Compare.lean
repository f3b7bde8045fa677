import ChunkedSet.Chunk.Query

/-!
# Comparing and counting pairs of chunks

Disjointness, inclusion, equality as sets, and sizes of combinations, none of which builds the
combination.
-/

namespace ChunkedSet.Chunk

def isDisjoint : Chunk → Chunk → Bool
  | array a, array b => a.isDisjoint b
  | array a, block b => a.values.all fun p => !b.contains p
  | array a, runs l => l.isDisjointSorted a
  | block b, array a => a.values.all fun p => !b.contains p
  | block b, block c => b.isDisjoint c
  | block b, runs l => l.isDisjointBlock b
  | runs l, array a => l.isDisjointSorted a
  | runs l, block b => l.isDisjointBlock b
  | runs l, runs m => l.isDisjoint m

def isSubset (c d : Chunk) : Bool :=
  if d.size < c.size then false
  else
    match c, d with
    | array a, array b => a.isSubset b
    | array a, block b => a.values.all b.contains
    | array a, runs l => l.intersectionSizeSorted a == a.size
    | block b, array a => b.positions.all a.contains
    | block b, block c => b.isSubset c
    | block b, runs l => l.intersectionSizeBlock b == b.size
    | runs l, d => l.runs.all fun r => d.containsRange r.first r.last

def equals (c d : Chunk) : Bool :=
  match c, d with
  | array a, array b => a == b
  | block b, block c => b == c
  | runs l, runs m => l == m
  | _, _ => c.size == d.size && c.positions == d.positions

def intersectionSize : Chunk → Chunk → Nat
  | array a, array b => a.intersectionSize b
  | array a, block b => a.values.countP b.contains
  | array a, runs l => l.intersectionSizeSorted a
  | block b, array a => a.values.countP b.contains
  | block b, block c => b.intersectionSize c
  | block b, runs l => l.intersectionSizeBlock b
  | runs l, array a => l.intersectionSizeSorted a
  | runs l, block b => l.intersectionSizeBlock b
  | runs l, runs m => l.intersectionSize m

def countUpTo (a : SortedArray) (c : Chunk) (last : Nat) : Nat :=
  (a.values.extract 0 (a.rank last)).countP c.contains

def overlapUpTo (l : RunList) (c : Chunk) (last : Nat) : Nat :=
  (l.toList.takeWhile (·.first ≤ last)).foldl
    (fun n r => n + c.rangeSize r.first (min r.last last)) 0

def intersectionSizeUpTo (c d : Chunk) (last : Nat) : Nat :=
  if last = lastPosition then c.intersectionSize d
  else
    match c, d with
    | array a, d => countUpTo a d last
    | c, array a => countUpTo a c last
    | runs l, d => overlapUpTo l d last
    | c, runs l => overlapUpTo l c last
    | block b, block c => b.intersectionSizeUpTo c last

/-- The size of the union with the positions up to `last` that `other` lacks. -/
def orNotSize (c other : Chunk) (last : Nat) : Nat :=
  c.size + (last + 1) - other.rank last - c.rank last + c.intersectionSizeUpTo other last

end ChunkedSet.Chunk
