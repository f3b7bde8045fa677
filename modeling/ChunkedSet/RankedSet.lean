import ChunkedSet.IntSet.Compare
import ChunkedSet.IntSet.Text

/-!
# Sets with cached ranks

A set with, once they were asked for, the numbers of values up to the end of each entry. Every
change drops the cache; the size, ranks and selections fill it.
-/

namespace ChunkedSet

structure RankedSet where
  set : IntSet
  cumulative : Option (Array Nat)

namespace RankedSet

def ofSet (s : IntSet) : RankedSet := ⟨s, none⟩

def empty : RankedSet := ofSet .empty

def isCached (r : RankedSet) : Bool := r.cumulative.isSome

def sums (s : IntSet) : Array Nat :=
  (s.entries.foldl (fun (total, out) e => (total + e.size, out.push (total + e.size)))
    (0, #[])).2

def cachedSums (r : RankedSet) : Array Nat := r.cumulative.getD (sums r.set)

def fill (r : RankedSet) : RankedSet := { r with cumulative := some r.cachedSums }

def update {β : Type} (r : RankedSet) (f : IntSet → IntSet × β) : RankedSet × β :=
  let (s, report) := f r.set
  (ofSet s, report)

def before (cumulative : Array Nat) : Nat → Nat
  | 0 => 0
  | i + 1 => cumulative.getD i 0

def size (r : RankedSet) : Nat × RankedSet := (r.cachedSums.back?.getD 0, r.fill)

def rank (r : RankedSet) (v : Nat) : Nat × RankedSet :=
  let cumulative := r.cachedSums
  let place := r.set.below (keyOf v)
  let inside :=
    match r.set.entries[place]? with
    | some e => if e.key = keyOf v then e.chunk.rank (positionOf v) else 0
    | none => 0
  (before cumulative place + inside, r.fill)

def select (r : RankedSet) (n : Nat) : Option Nat × RankedSet :=
  let cumulative := r.cachedSums
  let place := partitionPoint (· ≤ n) cumulative
  let found :=
    r.set.entries[place]?.bind fun e =>
      (e.chunk.select ((n - before cumulative place) % chunkSize)).map e.value
  (found, r.fill)

def equals (r q : RankedSet) : Bool := r.set.equals q.set

def text (r : RankedSet) : String :=
  "FastRankRoaringBitmap \x7b bitmap: " ++ r.set.text ++ ", cached: " ++ toString r.isCached ++
    " \x7d"

end RankedSet

end ChunkedSet
