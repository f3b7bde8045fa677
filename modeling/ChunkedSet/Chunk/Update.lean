import ChunkedSet.Chunk.Algebra

/-!
# Changing a chunk

Point and range updates. Each reports what it changed, and settles the representation; the point
updates leave a chunk that they do not change as it is.
-/

namespace ChunkedSet.Chunk

def settleIf (changed : Bool) (c : Chunk) : Chunk := if changed then c.settle else c

def insertRaw (c : Chunk) (p : Nat) : Chunk × Bool :=
  match c with
  | array a => let (a, added) := a.insert p; (array a, added)
  | block b => let (b, added) := b.insert p; (block b, added)
  | runs l => let (l, added) := l.insert p; (runs l, added)

def insert (c : Chunk) (p : Nat) : Chunk × Bool :=
  let (c, added) := c.insertRaw p
  (c.settleIf added, added)

def eraseRaw (c : Chunk) (p : Nat) : Chunk × Bool :=
  match c with
  | array a => let (a, removed) := a.erase p; (array a, removed)
  | block b => let (b, removed) := b.erase p; (block b, removed)
  | runs l => let (l, removed) := l.erase p; (runs l, removed)

def erase (c : Chunk) (p : Nat) : Chunk × Bool :=
  let (c, removed) := c.eraseRaw p
  (c.settleIf removed, removed)

def pushRaw (c : Chunk) (p : Nat) : Chunk × Bool :=
  match c with
  | array a => let (a, pushed) := a.push p; (array a, pushed)
  | block b => let (b, pushed) := b.push p; (block b, pushed)
  | runs l => let (l, pushed) := l.push p; (runs l, pushed)

def push (c : Chunk) (p : Nat) : Chunk × Bool :=
  let (c, pushed) := c.pushRaw p
  (c.settleIf pushed, pushed)

/-- Appends `p`, which exceeds every position. -/
def append (c : Chunk) (p : Nat) : Chunk :=
  settle <|
    match c with
    | array a => array (a.append p)
    | block b => block (b.append p)
    | runs l => runs (l.append p)

/-- A block in place of an array that would outgrow its limit. -/
def widen (c : Chunk) (size : Nat) : Chunk :=
  match c with
  | array a => if arrayLimit < size then (array a).toBlock else array a
  | c => c

def insertRangeRaw (c : Chunk) (lo hi : Nat) : Chunk :=
  match c with
  | array a => array (a.insertRange lo hi).1
  | block b => block (b.insertRange lo hi).1
  | runs l => runs (l.insertRange lo hi).1

def insertRange (c : Chunk) (lo hi : Nat) : Chunk × Nat :=
  let width := hi - lo + 1
  if c.isEmpty then (ofRange lo hi, width)
  else
    let added := width - c.rangeSize lo hi
    let size := c.size + added
    if size = chunkSize then (full, added)
    else (((c.widen size).insertRangeRaw lo hi).settle, added)

def eraseRangeRaw (c : Chunk) (lo hi : Nat) : Chunk × Nat :=
  match c with
  | array a => let (a, removed) := a.eraseRange lo hi; (array a, removed)
  | block b => let (b, removed) := b.eraseRange lo hi; (block b, removed)
  | runs l => let (l, removed) := l.eraseRange lo hi; (runs l, removed)

def eraseRange (c : Chunk) (lo hi : Nat) : Chunk × Nat :=
  let (c, removed) := c.eraseRangeRaw lo hi
  (c.settle, removed)

def dropSmallest (c : Chunk) (n : Nat) : Chunk :=
  settle <|
    match c with
    | array a => array (a.dropSmallest n)
    | block b => block (b.dropSmallest n)
    | runs l => runs (l.dropSmallest n)

def dropBiggest (c : Chunk) (n : Nat) : Chunk :=
  settle <|
    match c with
    | array a => array (a.dropBiggest n)
    | block b => block (b.dropBiggest n)
    | runs l => runs (l.dropBiggest n)

end ChunkedSet.Chunk
