import ChunkedSet.Chunk.Query

/-!
# Set operations on chunks

Nine pairs of representations for each operation. Which operand's storage the result takes over
is the choice of the caller: none for `union`, the left one's for `unionOnto`, either one's for
`unionTaking`, and likewise for the other operations. The results are not settled yet.
-/

namespace ChunkedSet.Chunk

def unionOnto : Chunk → Chunk → Chunk
  | array a, array b =>
    if a.size + b.size ≤ arrayLimit then array (a.union b)
    else block ((Block.ofSorted a).insertAll b)
  | array a, block b => block (b.insertAll a)
  | array a, runs l => runs (l.union (.ofSorted a))
  | block b, array a => block (b.insertAll a)
  | block b, block c => block (b.union c)
  | block b, runs l => block (b.insertRuns l)
  | runs l, array a => runs (l.union (.ofSorted a))
  | runs l, block b => block (b.insertRuns l)
  | runs l, runs m => runs (l.union m)

def union (c d : Chunk) : Chunk :=
  match c, d with
  | array a, array b =>
    if a.size + b.size ≤ arrayLimit then array (a.union b) else c.unionOnto d
  | array _, block _ => d.unionOnto c
  | runs _, block _ => d.unionOnto c
  | _, _ => c.unionOnto d

/-- The union in the storage of a block, if one operand is a block. -/
def unionTaking (c d : Chunk) : Chunk :=
  if d.isBlock && !c.isBlock then d.unionOnto c else c.unionOnto d

def intersectionOnto : Chunk → Chunk → Chunk
  | array a, array b => array (a.intersection b)
  | array a, block b => array (a.filter b.contains)
  | array a, runs l => array (a.retainRuns l)
  | block b, array a => array (a.filter b.contains)
  | block b, block c => block (b.intersection c)
  | block b, runs l => block (b.retainRuns l)
  | runs l, array a => array (a.retainRuns l)
  | runs l, block b =>
    if l.size ≤ arrayLimit then array (l.toSorted.filter b.contains) else block (b.retainRuns l)
  | runs l, runs m => runs (l.intersection m)

def intersection (c d : Chunk) : Chunk :=
  match c, d with
  | array a, array b => array (a.intersection b)
  | block _, array _ => d.intersectionOnto c
  | block _, runs _ => d.intersectionOnto c
  | _, _ => c.intersectionOnto d

/-- The intersection in the storage of an operand that is no block, if there is one. -/
def intersectionTaking (c d : Chunk) : Chunk :=
  if c.isBlock && !d.isBlock then d.intersectionOnto c else c.intersectionOnto d

def differenceOnto : Chunk → Chunk → Chunk
  | array a, array b => array (a.difference b)
  | array a, block b => array (a.filter fun p => !b.contains p)
  | array a, runs l => array (a.eraseRuns l)
  | block b, array a => block (b.eraseAll a)
  | block b, block c => block (b.difference c)
  | block b, runs l => block (b.eraseRuns l)
  | runs l, array a => runs (l.difference (.ofSorted a))
  | runs l, block b =>
    if l.size ≤ arrayLimit then array (l.toSorted.filter fun p => !b.contains p)
    else block (l.toBlock.difference b)
  | runs l, runs m => runs (l.difference m)

def difference (c d : Chunk) : Chunk :=
  match c, d with
  | array a, array b => array (a.difference b)
  | _, _ => c.differenceOnto d

def symmetricDifferenceOnto : Chunk → Chunk → Chunk
  | array a, array b => array (a.symmetricDifference b)
  | array a, block b => block (b.toggleAll a)
  | array a, runs l => runs (l.symmetricDifference (.ofSorted a))
  | block b, array a => block (b.toggleAll a)
  | block b, block c => block (b.symmetricDifference c)
  | block b, runs l => block (b.flipRuns l)
  | runs l, array a => runs (l.symmetricDifference (.ofSorted a))
  | runs l, block b => block (b.flipRuns l)
  | runs l, runs m => runs (l.symmetricDifference m)

def symmetricDifference (c d : Chunk) : Chunk :=
  match c, d with
  | array a, array b => array (a.symmetricDifference b)
  | array _, block _ => d.symmetricDifferenceOnto c
  | runs _, block _ => d.symmetricDifferenceOnto c
  | _, _ => c.symmetricDifferenceOnto d

def symmetricDifferenceTaking (c d : Chunk) : Chunk :=
  if d.isBlock && !c.isBlock then d.symmetricDifferenceOnto c else c.symmetricDifferenceOnto d

/-- The union with gaps between runs. -/
def unionGaps (c : Chunk) (gaps : RunList) : Chunk :=
  match c with
  | block b => block (b.insertRuns gaps)
  | _ => (runs gaps).unionOnto c

/-- The union with the positions up to `last` that `other` lacks. -/
def orNot (c other : Chunk) (last : Nat) : Chunk :=
  match other with
  | block b => block (c.toBits.orNot b last)
  | array a => c.unionGaps (RunList.gapsWithin (RunList.singletons a) last)
  | runs l => c.unionGaps (RunList.gapsWithin l.toList last)

def flipRange (c : Chunk) (lo hi : Nat) : Chunk :=
  match c with
  | block b => block (b.flipRange lo hi)
  | _ => c.symmetricDifferenceOnto (runs (.ofRange lo hi))

end ChunkedSet.Chunk
