import ChunkedSet.Block.Words
import ChunkedSet.SortedArray.Basic

/-!
# Blocks with a cached size

A block keeps the number of its set bits beside its words. Every operation adjusts the number
by what it changes, and only the operations on whole blocks count again.
-/

namespace ChunkedSet

structure Block where
  size : Nat
  words : Words
deriving DecidableEq

namespace Block

def empty : Block := ⟨0, Words.empty⟩

def ofWords (ws : Words) : Block := ⟨ws.popcount, ws⟩

def ofSorted (a : SortedArray) : Block := ⟨a.size, a.values.foldl Words.insert Words.empty⟩

def positions (b : Block) : Array Nat := b.words.positions

def toSorted (b : Block) : SortedArray := ⟨b.positions⟩

def contains (b : Block) (p : Nat) : Bool := b.words.contains p

def insert (b : Block) (p : Nat) : Block × Bool :=
  if b.words.contains p then (b, false) else (⟨b.size + 1, b.words.insert p⟩, true)

def erase (b : Block) (p : Nat) : Block × Bool :=
  if b.words.contains p then (⟨b.size - 1, b.words.erase p⟩, true) else (b, false)

def min? (b : Block) : Option Nat := b.words.firstBetween 0 chunkSize

def max? (b : Block) : Option Nat := b.words.lastBetween 0 chunkSize

def next? (b : Block) (p : Nat) : Option Nat := b.words.firstBetween p chunkSize

def previous? (b : Block) (p : Nat) : Option Nat := b.words.lastBetween 0 (p + 1)

/-- Adds `p`, which exceeds every position of the block. -/
def append (b : Block) (p : Nat) : Block := (b.insert p).1

def push (b : Block) (p : Nat) : Block × Bool :=
  match b.max? with
  | some last => if last < p then (b.append p, true) else (b, false)
  | none => (b.append p, true)

def rangeSize (b : Block) (lo hi : Nat) : Nat := b.words.rangeSize lo hi

def containsRange (b : Block) (lo hi : Nat) : Bool := b.words.containsRange lo hi

def insertRange (b : Block) (lo hi : Nat) : Block × Nat :=
  let added := b.words.sumRange lo hi fun _ mask w => mask &&& ~~~w
  (⟨b.size + added, b.words.insertRange lo hi⟩, added)

def eraseRange (b : Block) (lo hi : Nat) : Block × Nat :=
  let removed := b.words.rangeSize lo hi
  (⟨b.size - removed, b.words.eraseRange lo hi⟩, removed)

def flipRange (b : Block) (lo hi : Nat) : Block :=
  let before := b.words.rangeSize lo hi
  let width := b.words.sumRange lo hi fun _ mask _ => mask
  ⟨b.size - before + (width - before), b.words.flipRange lo hi⟩

def dropSmallest (b : Block) (n : Nat) : Block :=
  if b.size ≤ n then empty else ⟨b.size - n, b.words.dropSmallest n⟩

def dropBiggest (b : Block) (n : Nat) : Block :=
  if b.size ≤ n then empty else ⟨b.size - n, b.words.dropBiggest n⟩

def insertAll (b : Block) (a : SortedArray) : Block := a.values.foldl (fun b p => (b.insert p).1) b

def eraseAll (b : Block) (a : SortedArray) : Block := a.values.foldl (fun b p => (b.erase p).1) b

def toggle (b : Block) (p : Nat) : Block :=
  match b.insert p with
  | (b, true) => b
  | (b, false) => (b.erase p).1

def toggleAll (b : Block) (a : SortedArray) : Block := a.values.foldl toggle b

def zipWith (f : UInt64 → UInt64 → UInt64) (a b : Block) : Block :=
  ofWords (Vector.zipWith f a.words b.words)

def union (a b : Block) : Block := zipWith (· ||| ·) a b

def intersection (a b : Block) : Block := zipWith (· &&& ·) a b

def difference (a b : Block) : Block := zipWith (fun v w => v &&& ~~~w) a b

def symmetricDifference (a b : Block) : Block := zipWith (· ^^^ ·) a b

/-- Adds the positions up to `last` that `other` lacks. -/
def orNot (b other : Block) (last : Nat) : Block :=
  ofWords (b.words.updateRange 0 last fun k mask w => w ||| (~~~(other.words.word k) &&& mask))

def isDisjoint (a b : Block) : Bool :=
  (Vector.zipWith (fun v w : UInt64 => v &&& w == 0) a.words b.words).all id

def isSubset (a b : Block) : Bool :=
  decide (a.size ≤ b.size) &&
    (Vector.zipWith (fun v w : UInt64 => v &&& w == v) a.words b.words).all id

def intersectionSize (a b : Block) : Nat :=
  Words.popcount (Vector.zipWith (· &&& ·) a.words b.words)

def intersectionSizeUpTo (a b : Block) (last : Nat) : Nat :=
  a.words.sumRange 0 last fun k mask w => w &&& b.words.word k &&& mask

end Block

end ChunkedSet
