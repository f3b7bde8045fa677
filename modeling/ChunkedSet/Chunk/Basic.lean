import ChunkedSet.RunList.Algebra

/-!
# Chunks

The positions of one key in one of three representations, the bytes each of them takes when
written, and the conversions between them. `settle` is the policy that every change ends with:
arrays hold at most 4096 values, blocks more than that, and runs only stay while they are the
shortest.
-/

namespace ChunkedSet

inductive Chunk
  | array (values : SortedArray)
  | block (bits : Block)
  | runs (list : RunList)
deriving DecidableEq

/-- An array never holds more values than this. -/
def arrayLimit : Nat := 4096

def blockBytes : Nat := 8192

def arrayBytes (n : Nat) : Nat := 2 * n

def runBytes (n : Nat) : Nat := 2 + 4 * n

def plainBytes (n : Nat) : Nat := min (arrayBytes n) blockBytes

namespace Chunk

def empty : Chunk := array .empty

def full : Chunk := runs .full

def ofRange (lo hi : Nat) : Chunk :=
  if runBytes 1 < plainBytes (hi - lo + 1) then runs (.ofRange lo hi)
  else array (SortedArray.empty.insertRange lo hi).1

def size : Chunk → Nat
  | array a => a.size
  | block b => b.size
  | runs l => l.size

def isEmpty : Chunk → Bool
  | array a => a.isEmpty
  | block b => b.size == 0
  | runs l => l.isEmpty

def isFull (c : Chunk) : Bool := c.size == chunkSize

def isRuns : Chunk → Bool
  | runs _ => true
  | _ => false

def isBlock : Chunk → Bool
  | block _ => true
  | _ => false

def positions : Chunk → Array Nat
  | array a => a.values
  | block b => b.positions
  | runs l => l.toSorted.values

def toList (c : Chunk) : List Nat := c.positions.toList

def runCount : Chunk → Nat
  | array a => a.runCount
  | block b => b.words.runCount
  | runs l => l.runCount

def bytes : Chunk → Nat
  | array a => arrayBytes a.size
  | block _ => blockBytes
  | runs l => runBytes l.runCount

def toBits : Chunk → Block
  | array a => .ofSorted a
  | block b => b
  | runs l => l.toBlock

def toArray : Chunk → Chunk
  | array a => array a
  | block b => array b.toSorted
  | runs l => array l.toSorted

def toBlock (c : Chunk) : Chunk := block c.toBits

def toRuns : Chunk → Chunk
  | array a => runs (.ofSorted a)
  | block b => runs (.ofBlock b)
  | runs l => runs l

/-- The representation that the size alone calls for. -/
def settlePlain (c : Chunk) : Chunk := if c.size ≤ arrayLimit then c.toArray else c.toBlock

def fits : Chunk → Bool
  | array a => decide (a.size ≤ arrayLimit)
  | block b => decide (arrayLimit < b.size)
  | runs l => decide (runBytes l.runCount < plainBytes l.size)

def settle (c : Chunk) : Chunk := if c.fits then c else c.settlePlain

def withoutRuns (c : Chunk) : Chunk × Bool := if c.isRuns then (c.settlePlain, true) else (c, false)

/-- Changes to or from runs, whichever is shorter; the flag says whether it did. -/
def optimize (c : Chunk) : Chunk × Bool :=
  let asRuns := runBytes c.runCount
  match c with
  | runs l => if asRuns < plainBytes l.size then (runs l, false) else (runs l).withoutRuns
  | array a => if asRuns < arrayBytes a.size then ((array a).toRuns, true) else (array a, false)
  | block b => if asRuns < blockBytes then ((block b).toRuns, true) else (block b, false)

end Chunk

end ChunkedSet
