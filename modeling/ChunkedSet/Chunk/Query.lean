import ChunkedSet.Chunk.Basic

/-!
# Questions about one chunk

Membership, order statistics and neighbours, answered by each representation in its own way.
-/

namespace ChunkedSet.Chunk

def contains (c : Chunk) (p : Nat) : Bool :=
  match c with
  | array a => a.contains p
  | block b => b.contains p
  | runs l => l.contains p

def containsRange (c : Chunk) (lo hi : Nat) : Bool :=
  match c with
  | array a => a.containsRange lo hi
  | block b => b.containsRange lo hi
  | runs l => l.containsRange lo hi

def rangeSize (c : Chunk) (lo hi : Nat) : Nat :=
  match c with
  | array a => a.rangeSize lo hi
  | block b => b.rangeSize lo hi
  | runs l => l.rangeSize lo hi

def min? : Chunk → Option Nat
  | array a => a.min?
  | block b => b.min?
  | runs l => l.min?

def max? : Chunk → Option Nat
  | array a => a.max?
  | block b => b.max?
  | runs l => l.max?

def rank (c : Chunk) (p : Nat) : Nat :=
  match c with
  | array a => a.rank p
  | block b => b.words.rank p
  | runs l => l.rank p

/-- The position of rank `n`, counted from zero. -/
def select (c : Chunk) (n : Nat) : Option Nat :=
  match c with
  | array a => a.select n
  | block b => b.words.select n
  | runs l => l.select n

def next? (c : Chunk) (p : Nat) : Option Nat :=
  match c with
  | array a => a.next? p
  | block b => b.next? p
  | runs l => l.next? p

def previous? (c : Chunk) (p : Nat) : Option Nat :=
  match c with
  | array a => a.previous? p
  | block b => b.previous? p
  | runs l => l.previous? p

def nextAbsent? (c : Chunk) (p : Nat) : Option Nat :=
  match c with
  | array a => a.nextAbsent? p
  | block b => b.words.nextClear? p
  | runs l => l.nextAbsent? p

def previousAbsent? (c : Chunk) (p : Nat) : Option Nat :=
  match c with
  | array a => a.previousAbsent? p
  | block b => b.words.previousClear? p
  | runs l => l.previousAbsent? p

end ChunkedSet.Chunk
